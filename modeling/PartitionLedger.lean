import PartitionLedger.CommandLine.Options
import PartitionLedger.Proofs.CanonicalBag
import PartitionLedger.Proofs.Commuting
import PartitionLedger.Proofs.Consistency
import PartitionLedger.Proofs.Iteration
import PartitionLedger.Proofs.SameSet
import PartitionLedger.Proofs.SettledCalls
import PartitionLedger.Proofs.Stepping
import PartitionLedger.Proofs.PathIndependence
import PartitionLedger.Proofs.Hull
import PartitionLedger.Proofs.Growth
import PartitionLedger.Proofs.Lookups
import PartitionLedger.Proofs.CursorLookups
import PartitionLedger.Proofs.TimelineLookups
import PartitionLedger.Proofs.MovedEnds
import PartitionLedger.Proofs.Nesting
import PartitionLedger.Proofs.TextOrder
import PartitionLedger.Partition.Walk
import PartitionLedger.Proofs.Names
import PartitionLedger.Proofs.OverridePairs
import PartitionLedger.Proofs.Ranges
import PartitionLedger.Proofs.ReadFaults
import PartitionLedger.Proofs.StoreAccess

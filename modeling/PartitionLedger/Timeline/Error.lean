import PartitionLedger.Partition.Error
import PartitionLedger.Timeline.Key
import PartitionLedger.Timeline.Strategy

/-!
Why a timeline refuses a partition, an operation or stored properties.
-/
namespace PartitionLedger

/-- What is wrong with a stored property. -/
inductive Defect where
  | notAPartition (error : PartitionError)
  | emptyElement
  /-- The element does not come after the one before it. -/
  | outOfOrder (element : String)
  /-- One end of the timeline is stored, and this one is not. -/
  | missingWhile (present : Property)
  | unknownStrategy (error : Strategy.Unknown)
deriving DecidableEq

def Defect.message : Defect → String
  | notAPartition error => error.message
  | emptyElement => "empty partition in list"
  | outOfOrder element => "'" ++ element ++ "' is out of order or repeated"
  | missingWhile present => "missing while " ++ present.name ++ " is present"
  | unknownStrategy error => error.message

/-- A defect and the property that has it. -/
structure Corruption where
  property : Property
  defect : Defect
deriving DecidableEq

inductive TimelineError where
  /-- The partition is of another period than the timeline. -/
  | invalidPartition (key : Key) (partition : Partition)
  | corrupt (key : Key) (corruption : Corruption)
  /-- Nothing can be dropped from a timeline without gaps. -/
  | dropUnsupported (key : Key)
deriving DecidableEq

def TimelineError.message : TimelineError → String
  | invalidPartition key partition =>
    "partition " ++ partition.textWithPeriod ++ " does not belong to timeline " ++ key.text
  | corrupt key corruption =>
    "corrupt timeline properties for " ++ key.text ++ ", property '" ++ corruption.property.name ++
      "': " ++ corruption.defect.message
  | dropUnsupported key =>
    "drop is not supported by " ++ Strategy.continuous.name ++ " timeline " ++ key.text

end PartitionLedger

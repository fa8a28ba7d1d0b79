import PartitionLedger.Partition.Basic

/-!
Why a partition or a range of partitions cannot be had.
-/
namespace PartitionLedger

/-- Why two partitions do not bound a range. -/
inductive RangeFault where
  | periodsDiffer
  | beginsAfterEnd
deriving DecidableEq, Repr

def RangeFault.message : RangeFault → String
  | periodsDiffer => "update periods differ"
  | beginsAfterEnd => "begin is after end"

inductive PartitionError where
  /-- The text is not written as partitions of the period are. -/
  | invalidFormat (period : Period) (value : String)
  /-- The text names an instant at which no partition of the period starts. -/
  | misaligned (period : Period) (value : String)
  /-- The instant lies in no partition that starts in the years 0 to 9999. -/
  | outOfRange (instant : Instant)
  | invalidRange (lower upper : Partition) (fault : RangeFault)
deriving DecidableEq

def PartitionError.message : PartitionError → String
  | invalidFormat period value =>
    "'" ++ value ++ "' is not a valid " ++ period.name ++ " partition, expected format '" ++
      period.pattern ++ "'"
  | misaligned period value =>
    "'" ++ value ++ "' is not aligned to a " ++ period.name ++ " partition boundary"
  | outOfRange instant => instant.text ++ " is outside of the supported partition years 0..=9999"
  | invalidRange lower upper fault =>
    "invalid partition range from " ++ lower.textWithPeriod ++ " to " ++ upper.textWithPeriod ++
      ": " ++ fault.message

end PartitionLedger

import PartitionLedger.Partition.Basic

/-!
Keys of timelines: a table, the period it is partitioned by and the column its partitions are on.
-/
namespace PartitionLedger

structure Key where
  table : String
  period : Period
  column : String
deriving DecidableEq

namespace Key

/-- By table, then by period, then by column. -/
def compare (k l : Key) : Ordering :=
  (Ord.compare k.table l.table).then <|
    (Ord.compare k.period l.period).then (Ord.compare k.column l.column)

def text (k : Key) : String := k.table ++ "/" ++ k.period.name ++ "/" ++ k.column

end Key
end PartitionLedger

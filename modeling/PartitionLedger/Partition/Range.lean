import PartitionLedger.Partition.Error

/-!
Half-open ranges of partitions: from the lower one on and up to the upper one, which is left out.
-/
namespace PartitionLedger

structure Range where
  period : Period
  lower : Cell period
  upper : Cell period
  ordered : lower ≤ upper
deriving DecidableEq

namespace Range

/-- Fails for partitions of different periods, and for a lower partition after the upper one. -/
def ofEnds (lower upper : Partition) : Except PartitionError Range :=
  match upper.cellIn? lower.period with
  | none => .error (.invalidRange lower upper .periodsDiffer)
  | some c =>
    if h : lower.cell ≤ c then .ok ⟨lower.period, lower.cell, c, h⟩
    else .error (.invalidRange lower upper .beginsAfterEnd)

/-- The range of one partition, none for the last one, which nothing follows. -/
def singleton? (q : Partition) : Option Range := do
  let r ← q.next?
  (ofEnds q r).toOption

def lowerEnd (r : Range) : Partition := ⟨r.period, r.lower⟩

def upperEnd (r : Range) : Partition := ⟨r.period, r.upper⟩

def isEmpty (r : Range) : Bool := r.lower == r.upper

def contains (r : Range) (q : Partition) : Bool := r.lowerEnd ≤ q ∧ q < r.upperEnd

/-- Number of partitions in the range. -/
def size (r : Range) : Nat := (r.upper.number - r.lower.number).toNat

/-- The first `n` partitions of the range in ascending order, or all of them if it has fewer. -/
def take (r : Range) (n : Nat) : List Partition :=
  (r.lower.run (min n r.size)).map (⟨r.period, ·⟩)

/-- The partitions of the range in ascending order. -/
def toList (r : Range) : List Partition := (r.lower.upto r.upper).map (⟨r.period, ·⟩)

/-- The range as messages show it, such as `[2024-03-01, 2024-03-05)`. -/
def text (r : Range) : String := "[" ++ r.lowerEnd.text ++ ", " ++ r.upperEnd.text ++ ")"

theorem take_toList (r : Range) (n : Nat) : r.toList.take n = r.take n := by
  rw [toList, ← List.map_take, Cell.upto, Cell.take_run]
  rfl

end Range
end PartitionLedger

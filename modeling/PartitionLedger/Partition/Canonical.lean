import PartitionLedger.Partition.Error

/-!
The partition that holds an instant, and reading a partition from its canonical text.

Main statement: a text is read only if it is the canonical text of the result.
-/
namespace PartitionLedger

namespace Cell

/-- The cell that holds an instant. -/
def holding? (p : Period) (i : Instant) : Option (Cell p) := ofNumber? p (p.cellAt i.seconds)

/-- Reads a canonical text. Of several faults, a year above 9999 is reported before a start that is
no boundary of the period, and that before padding which is not canonical. -/
def read (p : Period) (value : String) : Except PartitionError (Cell p) :=
  match p.named? value with
  | none => .error (.invalidFormat p value)
  | some i =>
    match holding? p i with
    | none => .error (.outOfRange i)
    | some c =>
      if c.start ≠ i then .error (.misaligned p value)
      else if c.text ≠ value then .error (.invalidFormat p value)
      else .ok c

theorem text_of_read {p : Period} {value : String} {c : Cell p} (h : read p value = .ok c) :
    c.text = value := by
  simp only [read] at h
  split at h
  · cases h
  · split at h
    · cases h
    · split at h
      · cases h
      · split at h
        · cases h
        · rename_i hc
          cases h
          exact Decidable.not_not.mp hc

end Cell

namespace Partition

/-- The partition that holds an instant. -/
def holding (p : Period) (i : Instant) : Except PartitionError Partition :=
  match Cell.holding? p i with
  | some c => .ok ⟨p, c⟩
  | none => .error (.outOfRange i)

def read (p : Period) (value : String) : Except PartitionError Partition :=
  (Cell.read p value).map (⟨p, ·⟩)

end Partition
end PartitionLedger

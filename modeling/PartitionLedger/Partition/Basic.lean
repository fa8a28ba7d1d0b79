import PartitionLedger.Partition.Cell

/-!
Partitions of a table: a period and one of its cells.

Partitions of one period are ordered as their cells are; those of different periods are not ordered.
-/
namespace PartitionLedger

structure Partition where
  period : Period
  cell : Cell period
deriving DecidableEq

namespace Partition

def start (q : Partition) : Instant := q.cell.start

/-- The canonical text of a partition, which does not show its period. -/
def text (q : Partition) : String := q.cell.text

/-- The text of a partition with its period, such as `DAILY(2024-03-01)`. -/
def textWithPeriod (q : Partition) : String := q.period.name ++ "(" ++ q.text ++ ")"

/-- The partition as a cell of `p`, if that is its period. -/
def cellIn? (p : Period) (q : Partition) : Option (Cell p) :=
  if h : q.period = p then
    some ⟨q.cell.number, by subst h; exact q.cell.first_le, by subst h; exact q.cell.le_last⟩
  else none

/-- The partition `n` periods on, or back if `n` is negative; none outside the years 0 to 9999. -/
def offset? (q : Partition) (n : Int) : Option Partition := (q.cell.offset? n).map (⟨q.period, ·⟩)

def next? (q : Partition) : Option Partition := q.cell.next?.map (⟨q.period, ·⟩)

def previous? (q : Partition) : Option Partition := q.cell.previous?.map (⟨q.period, ·⟩)

/-- None for partitions of different periods. -/
def compare? (q r : Partition) : Option Ordering :=
  if q.period = r.period then some (compare q.cell.number r.cell.number) else none

instance : LT Partition where
  lt q r := q.compare? r = some .lt

instance : LE Partition where
  le q r := q.compare? r = some .lt ∨ q.compare? r = some .eq

instance (q r : Partition) : Decidable (q < r) :=
  inferInstanceAs (Decidable (q.compare? r = some .lt))

instance (q r : Partition) : Decidable (q ≤ r) :=
  inferInstanceAs (Decidable (q.compare? r = some .lt ∨ q.compare? r = some .eq))

/-- Only partitions of one period are compared. -/
theorem period_eq_of_le {q r : Partition} (h : q ≤ r) : q.period = r.period := by
  change q.compare? r = some .lt ∨ q.compare? r = some .eq at h
  by_cases hp : q.period = r.period
  · exact hp
  · simp [compare?, hp] at h

theorem le_of_lt {q r : Partition} (h : q < r) : q ≤ r := Or.inl h

theorem lt_iff_number {q r : Partition} (hp : q.period = r.period) :
    q < r ↔ q.cell.number < r.cell.number := by
  change q.compare? r = some .lt ↔ _
  simp [compare?, hp, Int.compare_eq_lt]

theorem le_iff_number {q r : Partition} (hp : q.period = r.period) :
    q ≤ r ↔ q.cell.number ≤ r.cell.number := by
  change q.compare? r = some .lt ∨ q.compare? r = some .eq ↔ _
  simp [compare?, hp, Int.compare_eq_lt, Int.le_iff_lt_or_eq]

theorem mk_lt_mk {p : Period} {c d : Cell p} : mk p c < mk p d ↔ c < d := lt_iff_number rfl

theorem mk_le_mk {p : Period} {c d : Cell p} : mk p c ≤ mk p d ↔ c ≤ d := le_iff_number rfl

theorem cellIn?_eq_some {p : Period} {q : Partition} {c : Cell p} :
    q.cellIn? p = some c ↔ q = ⟨p, c⟩ := by
  obtain ⟨period, cell⟩ := q
  constructor
  · intro h
    simp only [cellIn?, Option.dite_none_right_eq_some, Option.some.injEq] at h
    obtain ⟨rfl, rfl⟩ := h
    rfl
  · intro h
    cases h
    simp [cellIn?]

end Partition
end PartitionLedger

import PartitionLedger.Calendar.Instant
import PartitionLedger.Period.Basic

/-!
The grid of a period: time cut into numbered cells, one for each partition that could be.

Main statements: an instant lies in the cell that `cellAt` numbers, and cells follow each other
without a gap.
-/
namespace PartitionLedger.Period

open Calendar

/-- Number of the cell that holds a second of Unix time. -/
def cellAt : Period → Int → Int
  | continuous, s => s
  | secondly, s => s
  | minutely, s => s / 60
  | hourly, s => s / 3600
  | daily, s => s / 86400
  | weekly, s => weekOf (s / 86400)
  | monthly, s => monthOf (s / 86400)
  | quarterly, s => monthOf (s / 86400) / 3
  | yearly, s => yearOf (s / 86400)

/-- First second of a cell: weeks start on Monday, quarters in January, April, July and October. -/
def startOf : Period → Int → Int
  | continuous, c => c
  | secondly, c => c
  | minutely, c => 60 * c
  | hourly, c => 3600 * c
  | daily, c => 86400 * c
  | weekly, c => 86400 * weekStart c
  | monthly, c => 86400 * monthStart c
  | quarterly, c => 86400 * monthStart (3 * c)
  | yearly, c => 86400 * yearStart c

/-- Start of the cell that holds an instant; none if it comes before the first instant. -/
def truncate (p : Period) (i : Instant) : Option Instant :=
  Instant.ofUnix? (p.startOf (p.cellAt i.seconds)) 0

def Aligned (p : Period) (i : Instant) : Prop := p.truncate i = some i

instance (p : Period) (i : Instant) : Decidable (p.Aligned i) :=
  inferInstanceAs (Decidable (_ = _))

/-- Moves an instant by whole periods, keeping the time of day where the period is made of months. -/
def offset (p : Period) (i : Instant) (n : Int) : Option Instant :=
  match p with
  | continuous | secondly => i.addSeconds? n
  | minutely => i.addSeconds? (60 * n)
  | hourly => i.addSeconds? (3600 * n)
  | daily => i.addSeconds? (86400 * n)
  | weekly => i.addSeconds? (604800 * n)
  | monthly => i.addMonths? n
  | quarterly => i.addMonths? (3 * n)
  | yearly => i.addMonths? (12 * n)

theorem startOf_cellAt_le (p : Period) (s : Int) : p.startOf (p.cellAt s) ≤ s := by
  cases p <;> simp only [startOf, cellAt, yearStart, yearOf]
  case weekly => have := weekOf_start_le (s / 86400); omega
  case monthly => have := monthOf_start_le (s / 86400); omega
  case quarterly =>
    have := monthOf_start_le (s / 86400)
    have := monthStart_mono (a := 3 * (monthOf (s / 86400) / 3)) (b := monthOf (s / 86400)) (by omega)
    omega
  case yearly =>
    have := monthOf_start_le (s / 86400)
    have := monthStart_mono (a := 12 * (monthOf (s / 86400) / 12)) (b := monthOf (s / 86400)) (by omega)
    omega
  all_goals omega

theorem lt_startOf_cellAt_succ (p : Period) (s : Int) : s < p.startOf (p.cellAt s + 1) := by
  cases p <;> simp only [startOf, cellAt, yearStart, yearOf]
  case weekly => have := lt_weekOf_succ_start (s / 86400); omega
  case monthly => have := lt_monthOf_succ_start (s / 86400); omega
  case quarterly =>
    have := lt_monthOf_succ_start (s / 86400)
    have := monthStart_mono (a := monthOf (s / 86400) + 1) (b := 3 * (monthOf (s / 86400) / 3 + 1))
      (by omega)
    omega
  case yearly =>
    have := lt_monthOf_succ_start (s / 86400)
    have := monthStart_mono (a := monthOf (s / 86400) + 1) (b := 12 * (monthOf (s / 86400) / 12 + 1))
      (by omega)
    omega
  all_goals omega

theorem startOf_lt_succ (p : Period) (c : Int) : p.startOf c < p.startOf (c + 1) := by
  cases p <;> simp only [startOf, weekStart, yearStart]
  case monthly => have := monthStart_lt_succ c; omega
  case quarterly =>
    have := monthStart_lt_succ (3 * c)
    have := monthStart_mono (a := 3 * c + 1) (b := 3 * (c + 1)) (by omega)
    omega
  case yearly =>
    have := monthStart_lt_succ (12 * c)
    have := monthStart_mono (a := 12 * c + 1) (b := 12 * (c + 1)) (by omega)
    omega
  all_goals omega

/-- Cells are a second long at least. -/
theorem le_startOf_sub (p : Period) {c d : Int} (h : c ≤ d) : d - c ≤ p.startOf d - p.startOf c := by
  obtain ⟨n, rfl⟩ := Int.le.dest h
  induction n with
  | zero => simp
  | succ n ih =>
    have := p.startOf_lt_succ (c + n)
    have cast : c + ((n + 1 : Nat) : Int) = c + n + 1 := by omega
    have := ih (by omega)
    rw [cast]
    omega

theorem startOf_lt_iff (p : Period) {c d : Int} : p.startOf c < p.startOf d ↔ c < d := by
  constructor
  · intro h
    apply Int.not_le.mp
    intro hle
    have := p.le_startOf_sub hle
    omega
  · intro h
    have := p.le_startOf_sub (Int.le_of_lt h)
    omega

/-- A cell starts by a second exactly if it is no later than the cell of that second. -/
theorem startOf_le_iff (p : Period) {c s : Int} : p.startOf c ≤ s ↔ c ≤ p.cellAt s := by
  constructor
  · intro h
    have := p.startOf_lt_iff.mp (Int.lt_of_le_of_lt h (p.lt_startOf_cellAt_succ s))
    omega
  · intro h
    have lower := p.startOf_cellAt_le s
    obtain rfl | hlt := Int.le_iff_eq_or_lt.mp h
    · exact lower
    · have := p.startOf_lt_iff.mpr hlt
      omega

theorem cellAt_startOf (p : Period) (c : Int) : p.cellAt (p.startOf c) = c := by
  have lower := p.startOf_cellAt_le (p.startOf c)
  have upper := p.startOf_le_iff.mp (Int.le_refl (p.startOf c))
  have : ¬ c < p.cellAt (p.startOf c) := fun h => by
    have := p.startOf_lt_iff.mpr h
    omega
  omega

theorem startOf_le_startOf_iff (p : Period) {c d : Int} : p.startOf c ≤ p.startOf d ↔ c ≤ d := by
  rw [startOf_le_iff, cellAt_startOf]

theorem startOf_inj (p : Period) {c d : Int} : p.startOf c = p.startOf d ↔ c = d := by
  have hle := p.startOf_le_startOf_iff (c := c) (d := d)
  have hge := p.startOf_le_startOf_iff (c := d) (d := c)
  omega

theorem lt_of_offset {p : Period} {i j : Instant} (h : p.offset i 1 = some j) : i.seconds < j.seconds := by
  cases p with
  | continuous | secondly | minutely | hourly | daily | weekly =>
    exact Instant.lt_of_addSeconds? (by decide) h
  | monthly | quarterly | yearly => exact Instant.lt_of_addMonths? (by decide) h

end PartitionLedger.Period

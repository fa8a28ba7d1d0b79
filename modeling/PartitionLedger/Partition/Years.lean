import PartitionLedger.Partition.Cell

/-!
Cells and the calendar.

Main statements: a cell can be a partition exactly if it starts in the years 0 to 9999, and moving a
cell by periods is moving its start by periods.
-/
namespace PartitionLedger

open Calendar

theorem Calendar.monthOf_monthStart (month : Int) : monthOf (monthStart month) = month := by
  have cell := Period.monthly.cellAt_startOf month
  have day : 86400 * monthStart month / 86400 = monthStart month := by omega
  simpa only [Period.cellAt, Period.startOf, day] using cell

namespace Period

theorem yearStart_le_iff {y d : Int} : yearStart y ≤ d ↔ y ≤ yearOf d := by
  have := yearly.startOf_le_iff (c := y) (s := 86400 * d)
  have day : 86400 * d / 86400 = d := by omega
  simp only [startOf, cellAt, day] at this
  omega

theorem cell_bounds_iff (p : Period) {c : Int} :
    p.firstCell ≤ c ∧ c ≤ p.lastCell ↔
      0 ≤ yearOf (p.startOf c / 86400) ∧ yearOf (p.startOf c / 86400) ≤ 9999 := by
  have lower := yearStart_le_iff (y := 0) (d := p.startOf c / 86400)
  have upper := yearStart_le_iff (y := 10000) (d := p.startOf c / 86400)
  rw [cell_bounds_iff_start]
  omega

/-- Moving the start of a cell leads to the start of the cell as far away. -/
theorem offset_eq_of_start {p : Period} {i : Instant} {c : Int} (n : Int)
    (start : i.seconds = p.startOf c) (whole : i.nanos = 0) :
    p.offset i n = Instant.ofUnix? (p.startOf (c + n)) 0 := by
  have noLeap : ¬ i.IsLeap := by
    simp only [Instant.IsLeap, whole]
    decide
  have seconds : ∀ k, i.addSeconds? k = Instant.ofUnix? (p.startOf c + k) 0 := by
    intro k
    simp [Instant.addSeconds?, noLeap, start, whole]
  have months : ∀ m k, i.seconds = 86400 * monthStart m →
      i.addMonths? k = Instant.ofUnix? (86400 * monthStart (m + k)) 0 := by
    intro m k hm
    have day : i.day = monthStart m := by
      simp only [Instant.day]
      omega
    have length := (monthLength_bounds (m + k)).1
    have clamp : min (monthStart m - monthStart m) (monthLength (m + k) - 1) = 0 := by omega
    simp only [Instant.addMonths?, day, monthOf_monthStart, clamp, whole]
    congr 1
    omega
  cases p <;> simp only [offset, seconds, Period.startOf, yearStart, weekStart] at start ⊢
  case monthly => exact months c n start
  case quarterly =>
    rw [months (3 * c) (3 * n) start]
    congr 3
    omega
  case yearly =>
    rw [months (12 * c) (12 * n) start]
    congr 3
    omega
  all_goals
    congr 1
    omega

end Period

namespace Cell
variable {p : Period}

theorem year_start (c : Cell p) : 0 ≤ c.start.year ∧ c.start.year ≤ 9999 :=
  p.cell_bounds_iff.mp ⟨c.first_le, c.le_last⟩

theorem offset_start (c : Cell p) (n : Int) :
    p.offset c.start n = Instant.ofUnix? (p.startOf (c.number + n)) 0 :=
  Period.offset_eq_of_start n rfl rfl

/-- The cell `n` periods on starts where `n` periods after the start are, if that is in the years of
partitions. -/
theorem map_start_offset? (c : Cell p) (n : Int) :
    (c.offset? n).map start =
      (p.offset c.start n).filter fun i => 0 ≤ i.year ∧ i.year ≤ 9999 := by
  rw [offset_start]
  apply Option.ext
  intro i
  simp only [Option.map_eq_some_iff, Option.filter_eq_some_iff, Instant.ofUnix?_eq_some, offset?,
    ofNumber?_eq_some, decide_eq_true_eq]
  constructor
  · rintro ⟨d, hd, rfl⟩
    exact ⟨⟨by simp [start, hd], rfl⟩, d.year_start⟩
  · rintro ⟨⟨hs, hn⟩, year⟩
    have bounds : p.firstCell ≤ c.number + n ∧ c.number + n ≤ p.lastCell := by
      refine p.cell_bounds_iff.mpr ?_
      simpa only [Instant.year, Instant.day, hs] using year
    refine ⟨⟨c.number + n, bounds.1, bounds.2⟩, rfl, ?_⟩
    cases i
    simp only at hs hn
    simp [start, hs, hn]

end Cell
end PartitionLedger

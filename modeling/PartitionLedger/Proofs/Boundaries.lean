import PartitionLedger.Partition.Canonical
import PartitionLedger.Partition.Years

/-!
The boundaries of a period are the starts of its cells. Truncation gives the last boundary that does
not come after an instant, and the partition that holds the instant lasts from there until the next one.
-/
namespace PartitionLedger

open Calendar

namespace Instant
variable {i j : Instant}

/-- Partitions start in the years 0 to 9999. -/
def Supported (i : Instant) : Prop := 0 ≤ i.year ∧ i.year ≤ 9999

instance (i : Instant) : Decidable i.Supported := inferInstanceAs (Decidable (_ ∧ _))

theorem ext_whole (hs : i.seconds = j.seconds) (hi : i.nanos = 0) (hj : j.nanos = 0) : i = j := by
  cases i
  cases j
  simp_all

theorem exists_whole {s : Int} (hfirst : 86400 * yearStart (-262143) ≤ s)
    (hend : s < 86400 * yearStart 262143) : ∃ i : Instant, i.seconds = s ∧ i.nanos = 0 :=
  ⟨⟨s, 0, hfirst, hend, by decide⟩, rfl, rfl⟩

end Instant

namespace Period
variable {p : Period} {i t u : Instant} {c d : Int}

theorem truncate_eq_some :
    p.truncate i = some t ↔ t.seconds = p.startOf (p.cellAt i.seconds) ∧ t.nanos = 0 :=
  Instant.ofUnix?_eq_some

theorem aligned_iff : p.Aligned i ↔ (∃ c, i.seconds = p.startOf c) ∧ i.nanos = 0 := by
  simp only [Aligned, truncate_eq_some]
  constructor
  · rintro ⟨hs, hn⟩
    exact ⟨⟨_, hs⟩, hn⟩
  · rintro ⟨⟨c, hc⟩, hn⟩
    exact ⟨by simp [hc, cellAt_startOf], hn⟩

theorem aligned_of_truncate (h : p.truncate i = some t) : p.Aligned t := by
  obtain ⟨hs, hn⟩ := truncate_eq_some.mp h
  exact aligned_iff.mpr ⟨⟨_, hs⟩, hn⟩

theorem truncate_le (h : p.truncate i = some t) : t ≤ i := by
  obtain ⟨hs, hn⟩ := truncate_eq_some.mp h
  have hle := p.startOf_cellAt_le i.seconds
  exact (Instant.whole_le_iff hn).mpr (by omega)

/-- No boundary that does not come after the instant comes after its truncation. -/
theorem le_truncate (h : p.truncate i = some t) (hu : p.Aligned u) (hle : u ≤ i) : u ≤ t := by
  obtain ⟨hs, -⟩ := truncate_eq_some.mp h
  obtain ⟨⟨c, hc⟩, hn⟩ := aligned_iff.mp hu
  have hcell := p.startOf_le_iff.mp (hc ▸ (Instant.whole_le_iff hn).mp hle)
  have hstart := p.startOf_le_startOf_iff.mpr hcell
  exact (Instant.whole_le_iff hn).mpr (by omega)

/-- All periods but weeks start anew with each year. -/
theorem exists_startOf_year (hp : p ≠ .weekly) (year : Int) :
    ∃ c, p.startOf c = 86400 * yearStart year := by
  cases p with
  | weekly => exact absurd rfl hp
  | continuous | secondly => exact ⟨_, rfl⟩
  | minutely => exact ⟨1440 * yearStart year, by simp only [startOf]; omega⟩
  | hourly => exact ⟨24 * yearStart year, by simp only [startOf]; omega⟩
  | daily | yearly => exact ⟨_, rfl⟩
  | monthly => exact ⟨12 * year, rfl⟩
  | quarterly =>
    refine ⟨4 * year, ?_⟩
    have hmonth : 3 * (4 * year) = 12 * year := by omega
    simp only [startOf, yearStart, hmonth]

theorem truncate_eq_none_iff_lt :
    p.truncate i = none ↔ p.startOf (p.cellAt i.seconds) < 86400 * yearStart (-262143) := by
  constructor
  · intro h
    apply Int.not_le.mp
    intro hfirst
    have hend := Int.lt_of_le_of_lt (p.startOf_cellAt_le i.seconds) i.lt_end
    obtain ⟨t, ht⟩ := Instant.exists_whole hfirst hend
    rw [truncate_eq_some.mpr ht] at h
    cases h
  · exact fun h => Instant.ofUnix?_eq_none (Or.inl h)

/-- The only instants without a truncation are those of a week whose Monday no instant lies on. -/
theorem truncate_eq_none_iff :
    p.truncate i = none ↔ p = .weekly ∧ ∀ j : Instant, j.day ≠ weekStart (weekOf i.day) := by
  rw [truncate_eq_none_iff_lt]
  by_cases hp : p = .weekly
  · subst hp
    simp only [startOf, cellAt, true_and]
    constructor
    · intro h j hj
      have hfirst := j.first_le
      simp only [Instant.day] at hj
      omega
    · intro h
      apply Int.not_le.mp
      intro hfirst
      have hle := weekOf_start_le i.day
      have hend := i.lt_end
      simp only [Instant.day] at h hle
      obtain ⟨j, hj, -⟩ := Instant.exists_whole hfirst (by omega)
      exact h j (by omega)
  · simp only [hp, false_and, iff_false, Int.not_lt]
    obtain ⟨c, hc⟩ := exists_startOf_year hp (-262143)
    have hcell := p.startOf_le_iff.mp (hc ▸ i.first_le)
    exact hc ▸ p.startOf_le_startOf_iff.mpr hcell

end Period

namespace Cell
variable {p : Period} {c d : Cell p} {i : Instant}

/-- A boundary in the years of partitions is the start of a cell. -/
theorem exists_start (ha : p.Aligned i) (hs : i.Supported) : ∃ c : Cell p, c.start = i := by
  obtain ⟨⟨n, hn⟩, hw⟩ := Period.aligned_iff.mp ha
  have hyears : 0 ≤ yearOf (p.startOf n / 86400) ∧ yearOf (p.startOf n / 86400) ≤ 9999 := by
    rw [← hn]
    exact hs
  obtain ⟨hfirst, hlast⟩ := p.cell_bounds_iff.mpr hyears
  exact ⟨⟨n, hfirst, hlast⟩, Instant.ext_whole hn.symm rfl hw⟩

theorem holding?_eq_some : holding? p i = some c ↔ p.truncate i = some c.start := by
  simp only [holding?, ofNumber?_eq_some, Period.truncate_eq_some]
  constructor
  · intro h
    exact ⟨congrArg p.startOf h, rfl⟩
  · rintro ⟨h, -⟩
    exact p.startOf_inj.mp h

/-- The cell after one that is in the years of partitions starts before instants end. -/
theorem startOf_succ_lt_end (c : Cell p) : p.startOf (c.number + 1) < 86400 * yearStart 262143 := by
  have hyear := (p.cell_bounds_iff_start.mp ⟨c.first_le, c.le_last⟩).2
  have h10000 := yearStart_10000
  have hend := Instant.end_day
  by_cases hp : p = .weekly
  · subst hp
    simp only [Period.startOf, weekStart] at hyear ⊢
    omega
  · obtain ⟨d, hd⟩ := Period.exists_startOf_year hp 10000
    have hlt : c.number < d := p.startOf_lt_iff.mp (by omega)
    have hle := p.startOf_le_startOf_iff.mpr (Int.add_one_le_of_lt hlt)
    omega

/-- The boundary after the start of a cell is the start of the next cell. -/
theorem exists_next_boundary (c : Cell p) :
    ∃ e, p.offset c.start 1 = some e ∧ e.seconds = p.startOf (c.number + 1) ∧ e.nanos = 0 := by
  have hlt := p.startOf_lt_succ c.number
  have hfirst := c.start.first_le
  obtain ⟨e, hs, hn⟩ := Instant.exists_whole
    (Int.le_of_lt (Int.lt_of_le_of_lt hfirst hlt)) c.startOf_succ_lt_end
  refine ⟨e, ?_, hs, hn⟩
  rw [offset_start, Instant.ofUnix?_eq_some]
  exact ⟨hs, hn⟩

end Cell

namespace Partition
variable {p : Period} {q : Partition} {i e u : Instant} {err : PartitionError}

theorem holding_eq_ok : holding p i = .ok q ↔ q.period = p ∧ p.truncate i = some q.start := by
  obtain ⟨period, c⟩ := q
  simp only [holding]
  cases h : Cell.holding? p i with
  | none =>
    simp only [reduceCtorEq, false_iff]
    rintro ⟨rfl, ht⟩
    have hc := Cell.holding?_eq_some.mpr ht
    rw [h] at hc
    cases hc
  | some d =>
    have hd := Cell.holding?_eq_some.mp h
    constructor
    · intro hq
      cases hq
      exact ⟨rfl, hd⟩
    · rintro ⟨rfl, ht⟩
      have hc := Cell.holding?_eq_some.mpr ht
      rw [h] at hc
      cases hc
      rfl

theorem holding_eq_error (h : holding p i = .error err) : err = .outOfRange i := by
  simp only [holding] at h
  split at h
  · cases h
  · cases h
    rfl

/-- An instant is held by a partition exactly if it is truncated to a year of partitions. -/
theorem holding_start_iff {t : Instant} :
    (∃ q, holding p i = .ok q ∧ q.start = t) ↔ p.truncate i = some t ∧ t.Supported := by
  constructor
  · rintro ⟨q, hq, rfl⟩
    exact ⟨(holding_eq_ok.mp hq).2, q.cell.year_start⟩
  · rintro ⟨ht, hs⟩
    obtain ⟨c, rfl⟩ := Cell.exists_start (Period.aligned_of_truncate ht) hs
    exact ⟨⟨p, c⟩, holding_eq_ok.mpr ⟨rfl, ht⟩, rfl⟩

/-- A partition lasts until the next boundary of its period. -/
theorem lasts_until_next (h : holding p i = .ok q) :
    ∃ e, p.offset q.start 1 = some e ∧ p.Aligned e ∧ i < e ∧
      ∀ u, p.Aligned u → ¬ (q.start < u ∧ u < e) := by
  obtain ⟨rfl, ht⟩ := holding_eq_ok.mp h
  obtain ⟨e, hoffset, hs, hn⟩ := q.cell.exists_next_boundary
  refine ⟨e, hoffset, Period.aligned_iff.mpr ⟨⟨_, hs⟩, hn⟩, ?_, ?_⟩
  · have hcell : q.cell.number = q.period.cellAt i.seconds :=
      q.period.startOf_inj.mp (Period.truncate_eq_some.mp ht).1
    have hlt := q.period.lt_startOf_cellAt_succ i.seconds
    exact (Instant.lt_whole_iff hn).mpr (by rwa [hs, hcell])
  · rintro u hu ⟨hlow, hhigh⟩
    obtain ⟨⟨c, hc⟩, hw⟩ := Period.aligned_iff.mp hu
    have hafter := (Instant.lt_whole_iff hw).mp hlow
    have hbefore := (Instant.lt_whole_iff hn).mp hhigh
    rw [hc] at hafter hbefore
    rw [hs] at hbefore
    -- no number lies between that of the cell and the next one
    have hnumber := q.period.startOf_lt_iff.mp hafter
    have hnext := q.period.startOf_lt_iff.mp hbefore
    omega

/-- No other partition of the period holds the instant. -/
theorem holding_of_between (hle : q.start ≤ i) (he : q.period.offset q.start 1 = some e)
    (hlt : i < e) : holding q.period i = .ok q := by
  obtain ⟨next, hoffset, hs, hn⟩ := q.cell.exists_next_boundary
  obtain rfl : next = e := Option.some.inj (hoffset.symm.trans he)
  have hlow := q.period.startOf_le_iff.mp ((Instant.whole_le_iff rfl).mp hle)
  have hhigh := (Instant.lt_whole_iff hn).mp hlt
  have hnot : ¬ q.cell.number + 1 ≤ q.period.cellAt i.seconds := by
    rw [← Period.startOf_le_iff, ← hs]
    omega
  have hcell : q.cell.number = q.period.cellAt i.seconds := by omega
  exact holding_eq_ok.mpr ⟨rfl, Period.truncate_eq_some.mpr ⟨congrArg q.period.startOf hcell, rfl⟩⟩

theorem holding_iff_between :
    holding p i = .ok q ↔ q.period = p ∧ q.start ≤ i ∧ ∃ e, p.offset q.start 1 = some e ∧
      p.Aligned e ∧ i < e ∧ ∀ u, p.Aligned u → ¬ (q.start < u ∧ u < e) := by
  constructor
  · intro h
    obtain ⟨hp, ht⟩ := holding_eq_ok.mp h
    exact ⟨hp, Period.truncate_le ht, lasts_until_next h⟩
  · rintro ⟨rfl, hle, e, he, -, hlt, -⟩
    exact holding_of_between hle he hlt

/-- Truncation takes an instant to the last boundary that does not come after it, and fails only for a
week that starts before the first instant. If the boundary is in the years 0 to 9999, the one partition
that lasts from there until after the instant holds it, and otherwise none does. -/
theorem instant_in_one_partition (p : Period) (i : Instant) :
    (∀ t, p.truncate i = some t → p.Aligned t ∧ t ≤ i ∧ ∀ u, p.Aligned u → u ≤ i → u ≤ t) ∧
    (p.truncate i = none ↔ p = .weekly ∧ ∀ j : Instant, j.day ≠ weekStart (weekOf i.day)) ∧
    (∀ t, (∃ q, holding p i = .ok q ∧ q.start = t) ↔ p.truncate i = some t ∧ t.Supported) ∧
    (∀ q, holding p i = .ok q ↔ q.period = p ∧ q.start ≤ i ∧ ∃ e, p.offset q.start 1 = some e ∧
      p.Aligned e ∧ i < e ∧ ∀ u, p.Aligned u → ¬ (q.start < u ∧ u < e)) ∧
    ∀ err, holding p i = .error err → err = .outOfRange i := by
  refine ⟨?_, Period.truncate_eq_none_iff, fun t => holding_start_iff, fun q => holding_iff_between,
    fun _ => holding_eq_error⟩
  intro t ht
  exact ⟨Period.aligned_of_truncate ht, Period.truncate_le ht, fun u => Period.le_truncate ht⟩

/-- The leap second at the end of 2016 comes before the new year, though the seconds and nanoseconds it
counts add up to more. One in the middle of a minute belongs to the second before it. The first day of year 0
lies in a week of the year before. -/
theorem instant_in_one_partition_of_leap_second :
    let leap : Instant := ⟨1483228799, 1500000000, by decide, by decide, by decide⟩
    let newYear : Instant := ⟨1483228800, 0, by decide, by decide, by decide⟩
    let year : Partition := ⟨.yearly, 2016, by decide, by decide⟩
    let midMinute : Instant := ⟨1483228770, 1999999999, by decide, by decide, by decide⟩
    let second : Partition := ⟨.secondly, 1483228770, by decide, by decide⟩
    let saturday : Instant := ⟨-62167219200, 0, by decide, by decide, by decide⟩
    let monday : Instant := ⟨-62167651200, 0, by decide, by decide, by decide⟩
    holding .yearly leap = .ok year ∧ Period.yearly.offset year.start 1 = some newYear ∧
      leap < newYear ∧
      second.start ≤ midMinute ∧ holding .secondly midMinute = .ok second ∧
      Period.weekly.truncate saturday = some monday ∧ monday ≤ saturday ∧
      holding .weekly saturday = .error (.outOfRange saturday) := by
  intro leap newYear year midMinute second saturday monday
  have hyear : holding .yearly leap = .ok year := rfl
  have hnext : Period.yearly.offset year.start 1 = some newYear := by decide +kernel
  have hmonday : Period.weekly.truncate saturday = some monday := by decide +kernel
  obtain ⟨-, -, -, hlasts, -⟩ := instant_in_one_partition .yearly leap
  obtain ⟨-, -, e, he, -, hlt, -⟩ := (hlasts year).mp hyear
  obtain rfl : newYear = e := Option.some.inj (hnext.symm.trans he)
  have hsecond : holding .secondly midMinute = .ok second := rfl
  obtain ⟨-, -, -, hlasts, -⟩ := instant_in_one_partition .secondly midMinute
  obtain ⟨-, hle, -⟩ := (hlasts second).mp hsecond
  obtain ⟨hfloor, -, hheld, -, hrefused⟩ := instant_in_one_partition .weekly saturday
  refine ⟨hyear, hnext, hlt, hle, hsecond, hmonday, (hfloor monday hmonday).2.1, ?_⟩
  cases h : holding .weekly saturday with
  | ok q =>
    obtain ⟨ht, hs⟩ := (hheld q.start).mp ⟨q, h, rfl⟩
    have hsame : monday = q.start := Option.some.inj (hmonday.symm.trans ht)
    exact absurd (hsame ▸ hs) (by decide)
  | error err => exact congrArg Except.error (hrefused err h)

end Partition
end PartitionLedger

import PartitionLedger.Proofs.Boundaries

/-!
Cells of a coarser period are made of whole cells of a finer one, except that a month may begin and end
within a week. So an instant may be truncated to the finer period first.
-/
namespace PartitionLedger.Period

open Calendar

variable {p q r : Period} {i j t u : Instant} {s s' : Int}

theorem cellAt_mono (p : Period) (h : s ≤ s') : p.cellAt s ≤ p.cellAt s' :=
  p.startOf_le_iff.mp (Int.le_trans (p.startOf_cellAt_le s) h)

/-- Wherever a cell of `q` starts, one of `p` does. -/
def Nests (p q : Period) : Prop := ∀ c, ∃ d, p.startOf d = q.startOf c

theorem nests_refl (p : Period) : p.Nests p := fun c => ⟨c, rfl⟩

theorem Nests.trans (hpq : p.Nests q) (hqr : q.Nests r) : p.Nests r := by
  intro c
  obtain ⟨d, hd⟩ := hqr c
  obtain ⟨e, he⟩ := hpq d
  exact ⟨e, he.trans hd⟩

/-- The period that the cells of a period are made of. -/
def finer : Period → Period
  | continuous | secondly => continuous
  | minutely => secondly
  | hourly => minutely
  | daily => hourly
  | weekly | monthly => daily
  | quarterly => monthly
  | yearly => quarterly

theorem finer_nests (q : Period) : q.finer.Nests q := by
  intro c
  cases q with
  | continuous | secondly | minutely | weekly | monthly | quarterly => exact ⟨_, rfl⟩
  | hourly => exact ⟨60 * c, by simp only [finer, startOf]; omega⟩
  | daily => exact ⟨24 * c, by simp only [finer, startOf]; omega⟩
  | yearly =>
    refine ⟨4 * c, ?_⟩
    have hmonth : 3 * (4 * c) = 12 * c := by omega
    simp only [finer, startOf, yearStart, hmonth]

theorem rank_finer_lt (h : q ≠ continuous) : q.finer.rank < q.rank := by
  revert h
  cases q <;> decide

/-- A period that is finer than another one, and is not that of weeks, is no coarser than what the cells of
the other are made of. -/
theorem rank_le_finer (hlt : p.rank < q.rank) (hw : p ≠ weekly) : p.rank ≤ q.finer.rank := by
  revert hlt hw
  cases p <;> cases q <;> decide

/-- Cells are made of those of any finer period but weeks. The induction goes down from `q` by what its cells
are made of. -/
theorem nests_of_rank_le {p q : Period} (hle : p.rank ≤ q.rank) (hw : p = weekly → q = weekly) :
    p.Nests q := by
  by_cases he : p = q
  · exact he ▸ nests_refl p
  · have hlt : p.rank < q.rank := Nat.lt_of_le_of_ne hle (mt rank_inj.mp he)
    have hp : p ≠ weekly := fun hp => he (hp.trans (hw hp).symm)
    have hq : q ≠ continuous := by
      rintro rfl
      exact absurd hlt (Nat.not_lt_zero _)
    have hfiner : p.Nests q.finer := nests_of_rank_le (rank_le_finer hlt hp) fun h => absurd h hp
    exact hfiner.trans q.finer_nests
termination_by q.rank
decreasing_by exact rank_finer_lt hq

/-- No cell of the coarser period starts within a cell of the finer one. -/
theorem Nests.cellAt_startOf (h : p.Nests q) (s : Int) :
    q.cellAt (p.startOf (p.cellAt s)) = q.cellAt s := by
  have hle := q.cellAt_mono (p.startOf_cellAt_le s)
  obtain ⟨d, hd⟩ := h (q.cellAt s)
  have hcell : d ≤ p.cellAt s := p.startOf_le_iff.mp (hd ▸ q.startOf_cellAt_le s)
  have hstart : q.startOf (q.cellAt s) ≤ p.startOf (p.cellAt s) :=
    hd ▸ p.startOf_le_startOf_iff.mpr hcell
  exact Int.le_antisymm hle (q.startOf_le_iff.mp hstart)

theorem Nests.truncate (h : p.Nests q) (i : Instant) :
    (p.truncate i).bind q.truncate = q.truncate i := by
  have hcell := h.cellAt_startOf i.seconds
  cases hp : p.truncate i with
  | some t =>
    rw [Option.bind_some, Period.truncate, Period.truncate, (truncate_eq_some.mp hp).1, hcell]
  | none =>
    -- the cell of the coarser period starts no later than that of the finer one
    have hfirst := truncate_eq_none_iff_lt.mp hp
    have hle := q.startOf_cellAt_le (p.startOf (p.cellAt i.seconds))
    rw [hcell] at hle
    exact (truncate_eq_none_iff_lt.mpr (Int.lt_of_le_of_lt hle hfirst)).symm

theorem Nests.aligned (h : p.Nests q) (hu : q.Aligned u) : p.Aligned u := by
  obtain ⟨⟨c, hc⟩, hn⟩ := aligned_iff.mp hu
  obtain ⟨d, hd⟩ := h c
  exact aligned_iff.mpr ⟨⟨d, hc.trans hd.symm⟩, hn⟩

theorem truncate_mono (hij : i ≤ j) (hi : p.truncate i = some t) (hj : p.truncate j = some u) :
    t ≤ u :=
  le_truncate hj (aligned_of_truncate hi) (Std.le_trans (truncate_le hi) hij)

/-- An instant may be truncated to a finer period before it is truncated to a coarser one, whose boundaries
are boundaries of the finer one too; only weeks are not finer than months, quarters and years in this sense.
Truncating twice is truncating once, and truncation keeps the order of instants. -/
theorem truncation_nests :
    (∀ p q : Period, p.rank ≤ q.rank → ¬ (p = weekly ∧ q ∈ [monthly, quarterly, yearly]) →
      (∀ i, (p.truncate i).bind q.truncate = q.truncate i) ∧ ∀ u, q.Aligned u → p.Aligned u) ∧
    (∀ (p : Period) i, (p.truncate i).bind p.truncate = p.truncate i) ∧
    ∀ (p : Period) i j t u, i ≤ j → p.truncate i = some t → p.truncate j = some u → t ≤ u := by
  refine ⟨?_, fun p => (nests_refl p).truncate, fun _ _ _ _ _ => truncate_mono⟩
  intro p q hle hexcept
  have hw : p = weekly → q = weekly := by
    rintro rfl
    revert hle hexcept
    cases q <;> decide
  have hnests := nests_of_rank_le hle hw
  exact ⟨hnests.truncate, fun _ => hnests.aligned⟩

/-- The week of the first day of all starts before any instant, whether the time of day is cut off first or
not. A leap second belongs to the hour and to the year that it ends. -/
theorem truncation_nests_of_leap_second :
    let first : Instant := ⟨86400 * -96465292, 0, by decide, by decide, by decide⟩
    let year : Instant := ⟨1451606400, 0, by decide, by decide, by decide⟩
    let hour : Instant := ⟨1483225200, 0, by decide, by decide, by decide⟩
    let leap : Instant := ⟨1483228799, 1500000000, by decide, by decide, by decide⟩
    let newYear : Instant := ⟨1483228800, 0, by decide, by decide, by decide⟩
    (daily.truncate first).bind weekly.truncate = none ∧
      (hourly.truncate leap).bind yearly.truncate = some year ∧ hourly.Aligned year ∧
      (hourly.truncate leap).bind hourly.truncate = some hour ∧ leap ≤ newYear ∧
      hourly.truncate newYear = some newYear ∧ hour ≤ newYear := by
  intro first year hour leap newYear
  obtain ⟨hnests, hagain, hmono⟩ := truncation_nests
  obtain ⟨hweekly, -⟩ := hnests daily weekly (by decide) (by decide)
  obtain ⟨hyearly, hboundary⟩ := hnests hourly yearly (by decide) (by decide)
  have hfirst : weekly.truncate first = none := by decide +kernel
  have hyear : yearly.truncate leap = some year := by decide +kernel
  have hhour : hourly.truncate leap = some hour := by decide +kernel
  have hnew : hourly.truncate newYear = some newYear := by decide +kernel
  have hle : leap ≤ newYear := by decide
  exact ⟨(hweekly first).trans hfirst, (hyearly leap).trans hyear, hboundary year (by decide +kernel),
    (hagain hourly leap).trans hhour, hle, hnew, hmono hourly leap newYear hour newYear hle hhour hnew⟩

/-- The week of new year's day 2021 starts in 2020. -/
example :
    let newYear : Instant := ⟨1609459200, 0, by decide, by decide, by decide⟩
    (weekly.truncate newYear).bind yearly.truncate ≠ yearly.truncate newYear := by
  decide +kernel

end PartitionLedger.Period

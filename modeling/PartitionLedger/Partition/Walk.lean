import PartitionLedger.Partition.Range

/-!
Walks over ranges: from the lower end of a range on, one partition after the other, for as long as they
come before its upper end.

A walk keeps no count of its steps, so nothing but the order of partitions ends it. Main statement: it
does end, and has then passed the partitions of the range.
-/
namespace PartitionLedger

/-- What is left of a walk. -/
structure Walk where
  /-- The partition to come, none beyond the last that there is. -/
  next : Option Partition
  /-- The partition that the walk stops before. -/
  stop : Partition
deriving DecidableEq

namespace Walk

/-- The partition to come and what is left of the walk after it. -/
def step? (w : Walk) : Option (Partition × Walk) :=
  (w.next.filter (· < w.stop)).map fun q => (q, { w with next := q.next? })

/-- How many periods the partition to come is before the one that the walk stops before. -/
def distance (w : Walk) : Nat :=
  match w.next with
  | some q => (w.stop.cell.number - q.cell.number).toNat
  | none => 0

theorem step?_eq_some {w rest : Walk} {q : Partition} :
    w.step? = some (q, rest) ↔ w.next = some q ∧ q < w.stop ∧ rest = { w with next := q.next? } := by
  simp only [step?, Option.map_eq_some_iff, Option.filter_eq_some_iff, Prod.mk.injEq,
    decide_eq_true_eq]
  constructor
  · rintro ⟨_, ⟨hnext, hlt⟩, rfl, rfl⟩
    exact ⟨hnext, hlt, rfl⟩
  · rintro ⟨hnext, hlt, rfl⟩
    exact ⟨q, ⟨hnext, hlt⟩, rfl, rfl⟩

/-- Each step leads a period on, or beyond the last partition. -/
theorem distance_step {w rest : Walk} {q : Partition} (h : w.step? = some (q, rest)) :
    rest.distance < w.distance := by
  obtain ⟨hnext, hlt, rfl⟩ := step?_eq_some.mp h
  have hnumber := (Partition.lt_iff_number (Partition.period_eq_of_le (Partition.le_of_lt hlt))).mp hlt
  simp only [distance, hnext]
  split
  · rename_i d hd
    obtain ⟨c, hc, rfl⟩ := Option.map_eq_some_iff.mp hd
    have hstep := Cell.next?_eq_some.mp hc
    simp only
    omega
  · omega

/-- The partitions that a walk passes until it ends. -/
def toList (w : Walk) : List Partition :=
  match _h : w.step? with
  | some (q, rest) => q :: rest.toList
  | none => []
termination_by w.distance
decreasing_by exact distance_step _h

end Walk

/-- The walk over a range. -/
def Range.walk (r : Range) : Walk := ⟨some r.lowerEnd, r.upperEnd⟩

namespace Walk
variable {p : Period}

theorem toList_of_step {w rest : Walk} {q : Partition} (h : w.step? = some (q, rest)) :
    w.toList = q :: rest.toList := by
  rw [toList]
  split
  · rename_i h'
    cases h.symm.trans h'
    rfl
  · rename_i h'
    cases h.symm.trans h'

theorem toList_of_end {w : Walk} (h : w.step? = none) : w.toList = [] := by
  rw [toList]
  split
  · rename_i h'
    cases h.symm.trans h'
  · rfl

theorem step?_cells {c stop : Cell p} (h : c < stop) : (⟨some ⟨p, c⟩, ⟨p, stop⟩⟩ : Walk).step? =
    some (⟨p, c⟩, ⟨c.next?.map (⟨p, ·⟩), ⟨p, stop⟩⟩) :=
  step?_eq_some.mpr ⟨rfl, Partition.mk_lt_mk.mpr h, rfl⟩

theorem step?_cells_end {c stop : Cell p} (h : ¬ c < stop) :
    (⟨some ⟨p, c⟩, ⟨p, stop⟩⟩ : Walk).step? = none := by
  simp [step?, Option.filter, Partition.mk_lt_mk, h]

theorem toList_cells (c stop : Cell p) :
    (⟨some ⟨p, c⟩, ⟨p, stop⟩⟩ : Walk).toList = (c.upto stop).map (⟨p, ·⟩) := by
  generalize hn : (stop.number - c.number).toNat = n
  induction n generalizing c with
  | zero =>
    have hend : ¬ c < stop := by
      rw [Cell.lt_def]
      omega
    rw [toList_of_end (step?_cells_end hend), Cell.upto, hn]
    rfl
  | succ n ih =>
    have hlt : c < stop := by
      rw [Cell.lt_def]
      omega
    obtain ⟨d, hd, hnumber, -⟩ := Cell.next?_of_lt hlt
    have hcount : (stop.number - d.number).toNat = n := by omega
    have hrest := ih d hcount
    rw [Cell.upto, hcount] at hrest
    rw [toList_of_step (step?_cells hlt), Cell.upto, hn, Cell.run, hd]
    exact congrArg (_ :: ·) hrest

/-- Walking over a range passes its partitions. -/
theorem toList_walk (r : Range) : r.walk.toList = r.toList := toList_cells r.lower r.upper

end Walk
end PartitionLedger

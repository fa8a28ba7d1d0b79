import PartitionLedger.Partition.CellSet

/-!
Cursors: the existing partitions of a timeline in ascending order, from a place on.

A cursor is a value of its own, so it goes on over what the timeline held when it was opened.
Main statements: the list of a cursor is what its steps give, one after the other, and its size is
the length of that list.
-/
namespace PartitionLedger

/-- What a cursor goes over. -/
inductive Source (p : Period) where
  /-- The members of a set. -/
  | explicit (members : CellSet p)
  /-- All cells but the holes. -/
  | dense (holes : CellSet p)

namespace Source
variable {p : Period} {source : Source p} {next last c d : Cell p} {holes : CellSet p}

def Has : Source p → Cell p → Prop
  | explicit members, c => c ∈ members
  | dense holes, c => c ∉ holes

/-- The first cell from `c` on, at most `n` cells further, that is no hole. -/
def skipHoles (holes : CellSet p) (c : Cell p) : Nat → Option (Cell p)
  | 0 => if c ∈ holes then none else some c
  | n + 1 =>
    if c ∈ holes then
      match c.next? with
      | some d => skipHoles holes d n
      | none => none
    else some c

/-- The first cell of a source from `next` to `last`. -/
def find? (next last : Cell p) : Source p → Option (Cell p)
  | explicit members => (members.firstFrom? next).filter (· ≤ last)
  | dense holes => if next ≤ last then skipHoles holes next (next.distance last) else none

/-- All cells of a source from `next` to `last`. -/
def between (next last : Cell p) : Source p → List (Cell p)
  | explicit members => members.toList.filter fun c => next ≤ c ∧ c ≤ last
  | dense holes =>
    if next ≤ last then (next.run (next.distance last + 1)).filter (· ∉ holes) else []

/-- How many cells of a source there are from `next` to `last`. -/
def sizeBetween (next last : Cell p) : Source p → Nat
  | explicit members => (members.filter fun c => next ≤ c ∧ c ≤ last).size
  | dense holes =>
    if next ≤ last then
      next.distance last + 1 - (holes.filter fun hole => next ≤ hole ∧ hole ≤ last).size
    else 0

theorem mem_between : c ∈ source.between next last ↔ (next ≤ c ∧ c ≤ last) ∧ source.Has c := by
  cases source with
  | explicit members => simp only [between, Has, List.mem_filter, decide_eq_true_eq, and_comm,
      OrderedSet.mem_def]
  | dense holes =>
    simp only [between, Has]
    split
    · rename_i h
      rw [Cell.le_def] at h
      rw [List.mem_filter, Cell.mem_run]
      simp only [Cell.distance, Cell.le_def, decide_eq_true_eq]
      refine and_congr_left fun _ => ?_
      omega
    · rename_i h
      rw [Cell.le_def] at h
      simp only [List.not_mem_nil, Cell.le_def, false_iff]
      rintro ⟨⟨hl, hu⟩, -⟩
      omega

theorem between_ascending (source : Source p) (next last : Cell p) :
    (source.between next last).Pairwise (· < ·) := by
  cases source with
  | explicit members => exact members.ascending.filter _
  | dense holes =>
    simp only [between]
    split
    · exact Cell.run_ascending.filter _
    · exact .nil

theorem skipHoles_eq_some {n : Nat} (h : skipHoles holes c n = some d) :
    (c ≤ d ∧ d.number ≤ c.number + n) ∧ d ∉ holes ∧ ∀ e, c ≤ e → e < d → e ∈ holes := by
  induction n generalizing c with
  | zero =>
    simp only [skipHoles] at h
    split at h
    · cases h
    · rename_i hole
      cases h
      refine ⟨⟨Int.le_refl _, by omega⟩, hole, ?_⟩
      intro e hle hlt
      exact absurd hlt (Std.not_lt.mpr hle)
  | succ n ih =>
    simp only [skipHoles] at h
    split at h
    · rename_i hole
      split at h
      · rename_i b hb
        have step := Cell.next?_eq_some.mp hb
        obtain ⟨⟨hle, hn⟩, hd, hbetween⟩ := ih h
        rw [Cell.le_def] at hle
        refine ⟨⟨by rw [Cell.le_def]; omega, by omega⟩, hd, ?_⟩
        intro e hce hed
        by_cases he : e.number = c.number
        · exact Cell.ext_number he ▸ hole
        · exact hbetween e (by rw [Cell.le_def] at hce ⊢; omega) hed
      · cases h
    · rename_i hole
      cases h
      refine ⟨⟨Int.le_refl _, by omega⟩, hole, ?_⟩
      intro e hle hlt
      exact absurd hlt (Std.not_lt.mpr hle)

theorem skipHoles_eq_none {n : Nat} (h : skipHoles holes c n = none) :
    ∀ e, c ≤ e → e.number ≤ c.number + n → e ∈ holes := by
  induction n generalizing c with
  | zero =>
    simp only [skipHoles] at h
    split at h
    · rename_i hole
      intro e hle hn
      rw [Cell.le_def] at hle
      have he : e = c := Cell.ext_number (by omega)
      exact he ▸ hole
    · cases h
  | succ n ih =>
    simp only [skipHoles] at h
    split at h
    · rename_i hole
      intro e hle hn
      by_cases he : e.number = c.number
      · exact Cell.ext_number he ▸ hole
      · have hlt : c < e := by
          rw [Cell.le_def] at hle
          rw [Cell.lt_def]
          omega
        obtain ⟨d, hd, step, hde⟩ := Cell.next?_of_lt hlt
        simp only [hd] at h
        exact ih h e hde (by omega)
    · cases h

/-- What is found is in the source, and nothing of the source comes before it. -/
theorem find?_eq_some (h : source.find? next last = some c) :
    c ∈ source.between next last ∧ ∀ d ∈ source.between next last, c ≤ d := by
  simp only [mem_between]
  cases source with
  | explicit members =>
    obtain ⟨hfirst, hlast⟩ := Option.filter_eq_some_iff.mp h
    obtain ⟨⟨hnext, hmem⟩, hleast⟩ := OrderedSet.firstFrom?_eq_some hfirst
    refine ⟨⟨⟨hnext, of_decide_eq_true hlast⟩, hmem⟩, ?_⟩
    rintro d ⟨⟨hd, -⟩, hd'⟩
    exact hleast d hd' hd
  | dense holes =>
    simp only [find?] at h
    split at h
    · rename_i hle
      obtain ⟨⟨hnext, hlast⟩, hole, hbetween⟩ := skipHoles_eq_some h
      refine ⟨⟨⟨hnext, ?_⟩, hole⟩, ?_⟩
      · simp only [Cell.distance] at hlast
        rw [Cell.le_def] at hle ⊢
        omega
      · rintro d ⟨⟨hd, -⟩, hd'⟩
        exact Std.not_lt.mp fun hlt => hd' (hbetween d hd hlt)
    · cases h

theorem find?_eq_none (h : source.find? next last = none) : source.between next last = [] := by
  apply List.eq_nil_iff_forall_not_mem.mpr
  intro c hc
  obtain ⟨⟨hnext, hlast⟩, hmem⟩ := mem_between.mp hc
  cases source with
  | explicit members =>
    cases hfirst : members.firstFrom? next with
    | none => exact OrderedSet.firstFrom?_eq_none hfirst c hmem hnext
    | some d =>
      -- what was found lies beyond the last cell, and so does all that follows
      have hle : d ≤ last := Std.le_trans ((OrderedSet.firstFrom?_eq_some hfirst).2 c hmem hnext) hlast
      simp [find?, hfirst, Option.filter_some, hle] at h
  | dense holes =>
    have hle : next ≤ last := Std.le_trans hnext hlast
    simp only [find?, if_pos hle] at h
    refine hmem (skipHoles_eq_none h c hnext ?_)
    simp only [Cell.distance]
    rw [Cell.le_def] at hle hlast
    omega

/-- The holes in a run are as many as the set has between the ends of the run. -/
theorem countP_mem_run (h : c ≤ last) :
    (c.run (c.distance last + 1)).countP (· ∈ holes) =
      (holes.filter fun hole => c ≤ hole ∧ hole ≤ last).size := by
  let met : CellSet p := ⟨_, (Cell.run_ascending (a := c) (n := c.distance last + 1)).filter (· ∈ holes)⟩
  have same : met = holes.filter fun hole => c ≤ hole ∧ hole ≤ last := by
    refine OrderedSet.ext_mem fun x => ?_
    rw [OrderedSet.mem_def, List.mem_filter, Cell.mem_run, OrderedSet.mem_filter]
    simp only [decide_eq_true_eq, Cell.le_def, Cell.distance] at h ⊢
    rw [and_comm]
    refine and_congr_right fun _ => ?_
    omega
  rw [List.countP_eq_length_filter, ← same]
  rfl

theorem length_between (source : Source p) (next last : Cell p) :
    (source.between next last).length = source.sizeBetween next last := by
  cases source with
  | explicit members => rfl
  | dense holes =>
    simp only [between, sizeBetween]
    split
    · rename_i h
      have room : next.number + ↑(next.distance last + 1) ≤ p.lastCell + 1 := by
        have := last.le_last
        rw [Cell.le_def] at h
        simp only [Cell.distance]
        omega
      have total :=
        List.length_eq_countP_add_countP (· ∈ holes) (l := next.run (next.distance last + 1))
      rw [Cell.length_run room, countP_mem_run h] at total
      simp only [decide_eq_true_eq, List.countP_eq_length_filter] at total
      omega
    · rfl

end Source

structure Cursor (p : Period) where
  source : Source p
  /-- No cell before it is still to come, and none at all at the end. -/
  next : Option (Cell p)
  last : Option (Cell p)

namespace Cursor
variable {p : Period} {cursor : Cursor p} {lower upper found c : Cell p}

/-- The next cell and the cursor after it. -/
def step? (cursor : Cursor p) : Option (Cell p × Cursor p) :=
  match cursor.next, cursor.last with
  | some next, some last =>
    (cursor.source.find? next last).map fun found => (found, { cursor with next := found.next? })
  | _, _ => none

/-- All cells that are still to come. -/
def toList (cursor : Cursor p) : List (Cell p) :=
  match cursor.next, cursor.last with
  | some next, some last => cursor.source.between next last
  | _, _ => []

/-- How many cells are still to come. -/
def size (cursor : Cursor p) : Nat :=
  match cursor.next, cursor.last with
  | some next, some last => cursor.source.sizeBetween next last
  | _, _ => 0

/-- What is left of the cursor between `lower` and, exclusive, `upper`. -/
def within (lower upper : Cell p) (cursor : Cursor p) : Cursor p :=
  match upper.previous? with
  | some stop =>
    if lower < upper then
      { cursor with next := cursor.next.map (max · lower), last := cursor.last.map (min · stop) }
    else { cursor with next := none }
  | none => { cursor with next := none }

theorem mem_toList : c ∈ cursor.toList ↔
    (∃ next ∈ cursor.next, next ≤ c) ∧ (∃ last ∈ cursor.last, c ≤ last) ∧ cursor.source.Has c := by
  obtain ⟨source, next, last⟩ := cursor
  cases next <;> cases last <;> simp [toList, Source.mem_between, and_assoc]

theorem toList_ascending (cursor : Cursor p) : cursor.toList.Pairwise (· < ·) := by
  simp only [toList]
  split
  · exact Source.between_ascending _ _ _
  · exact .nil

/-- Two cursors with the same cells to come have them in the same order. -/
theorem toList_congr {a b : Cursor p} (h : ∀ c, c ∈ a.toList ↔ c ∈ b.toList) :
    a.toList = b.toList :=
  congrArg OrderedSet.toList
    (OrderedSet.ext_mem (s := ⟨_, a.toList_ascending⟩) (t := ⟨_, b.toList_ascending⟩) h)

/-- After a cell those are to come that lie beyond it. -/
theorem mem_toList_after : c ∈ ({ cursor with next := found.next? } : Cursor p).toList ↔
    found < c ∧ (∃ last ∈ cursor.last, c ≤ last) ∧ cursor.source.Has c := by
  rw [mem_toList]
  refine and_congr_left fun _ => ?_
  constructor
  · rintro ⟨d, hd, hle⟩
    have step := Cell.next?_eq_some.mp hd
    rw [Cell.le_def] at hle
    rw [Cell.lt_def]
    omega
  · intro hlt
    obtain ⟨d, hd, -, hle⟩ := Cell.next?_of_lt hlt
    exact ⟨d, hd, hle⟩

theorem toList_eq_step (cursor : Cursor p) :
    cursor.toList = match cursor.step? with
      | some (cell, rest) => cell :: rest.toList
      | none => [] := by
  obtain ⟨source, _ | next, _ | last⟩ := cursor
  · rfl
  · rfl
  · rfl
  · simp only [toList, step?]
    cases hfind : source.find? next last with
    | none => exact Source.find?_eq_none hfind
    | some found =>
      obtain ⟨hfound, hleast⟩ := Source.find?_eq_some hfind
      let after : Cursor p := ⟨source, found.next?, some last⟩
      have hafter : ∀ c, c ∈ after.toList ↔ found < c ∧ (∃ l ∈ some last, c ≤ l) ∧ source.Has c :=
        fun c => @mem_toList_after p ⟨source, some next, some last⟩ found c
      have ascending : (found :: after.toList).Pairwise (· < ·) :=
        List.pairwise_cons.mpr ⟨fun c hc => ((hafter c).mp hc).1, after.toList_ascending⟩
      -- both lists ascend, so their members decide
      refine congrArg OrderedSet.toList (OrderedSet.ext_mem
        (s := ⟨_, source.between_ascending next last⟩) (t := ⟨_, ascending⟩) fun c => ?_)
      change c ∈ source.between next last ↔ c ∈ found :: after.toList
      rw [List.mem_cons, hafter, Source.mem_between]
      obtain ⟨⟨hnext, hlast⟩, hhas⟩ := Source.mem_between.mp hfound
      constructor
      · rintro ⟨⟨hc, hc'⟩, hmem⟩
        by_cases he : c.number = found.number
        · exact Or.inl (Cell.ext_number he)
        · have hle := hleast c (Source.mem_between.mpr ⟨⟨hc, hc'⟩, hmem⟩)
          rw [Cell.le_def] at hle
          exact Or.inr ⟨by rw [Cell.lt_def]; omega, ⟨last, rfl, hc'⟩, hmem⟩
      · rintro (rfl | ⟨hlt, ⟨_, ⟨⟩, hc'⟩, hmem⟩)
        · exact ⟨⟨hnext, hlast⟩, hhas⟩
        · exact ⟨⟨Std.le_of_lt (Std.lt_of_le_of_lt hnext hlt), hc'⟩, hmem⟩

theorem length_toList (cursor : Cursor p) : cursor.toList.length = cursor.size := by
  simp only [toList, size]
  split
  · exact Source.length_between _ _ _
  · rfl

end Cursor
end PartitionLedger

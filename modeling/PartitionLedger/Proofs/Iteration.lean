import PartitionLedger.Proofs.Existing

/-!
Iterating over a timeline is stepping its cursor until nothing is left. The steps come to an end, and
what they give are the partitions that exist, in ascending order, whatever the timeline was loaded from.
Iterating within a range gives those of them that the range contains.
-/
namespace PartitionLedger

namespace Cursor
variable {p : Period} {cursor : Cursor p} {cs : List (Cell p)}

/-- Stepping a cursor to its end gives these cells, one after the other. -/
inductive Gives : Cursor p → List (Cell p) → Prop where
  | done {cursor : Cursor p} (h : cursor.step? = none) : Gives cursor []
  | step {cursor rest : Cursor p} {c : Cell p} {cs : List (Cell p)}
      (h : cursor.step? = some (c, rest)) (hs : Gives rest cs) : Gives cursor (c :: cs)

/-- A cursor comes to its end: each step takes one of the cells that are still to come. -/
theorem gives_toList (cursor : Cursor p) : cursor.Gives cursor.toList := by
  generalize hcs : cursor.toList = cs
  induction cs generalizing cursor with
  | nil =>
    rw [toList_eq_step] at hcs
    cases hstep : cursor.step? with
    | none => exact .done hstep
    | some result => simp [hstep] at hcs
  | cons c cs ih =>
    rw [toList_eq_step] at hcs
    cases hstep : cursor.step? with
    | none => simp [hstep] at hcs
    | some result =>
      obtain ⟨d, rest⟩ := result
      simp only [hstep, List.cons.injEq] at hcs
      obtain ⟨rfl, hrest⟩ := hcs
      exact .step hstep (ih rest hrest)

theorem Gives.eq_toList (h : cursor.Gives cs) : cs = cursor.toList := by
  induction h with
  | done h => simp [toList_eq_step, h]
  | step h _ ih =>
    rw [toList_eq_step, h, ih]

/-- What is left of a cursor within bounds comes in the order in which the cursor gives it. -/
theorem toList_within (cursor : Cursor p) (lower upper : Cell p) :
    (cursor.within lower upper).toList = cursor.toList.filter fun c => lower ≤ c ∧ c < upper := by
  let inside : CellSet p := ⟨_, cursor.toList_ascending.filter fun c => lower ≤ c ∧ c < upper⟩
  have same : ⟨_, (cursor.within lower upper).toList_ascending⟩ = inside := by
    apply OrderedSet.ext_mem
    intro c
    simp [inside, OrderedSet.mem_def, mem_within]
  exact congrArg OrderedSet.toList same

end Cursor

namespace Contents
variable {p : Period} {t : Contents p}

theorem cursor_eq_nil_iff (h : t.Consistent) : t.cursor.toList = [] ↔ t.first? = none := by
  rw [List.eq_nil_iff_forall_not_mem, ← Option.not_isSome_iff_eq_none, first?_isSome_iff h]
  simp [mem_cursor]

theorem head?_cursor (h : t.Consistent) : t.cursor.toList.head? = t.first? := by
  cases hf : t.first? with
  | none => simp [(cursor_eq_nil_iff h).mpr hf]
  | some c =>
    have hne : t.cursor.toList ≠ [] := by simp [cursor_eq_nil_iff h, hf]
    have hhead := List.head?_eq_some_head hne
    have hleast := OrderedSet.first?_eq_some (s := ⟨_, t.cursor.toList_ascending⟩) hhead
    simp only [OrderedSet.mem_def, mem_cursor] at hleast
    rw [hhead]
    exact congrArg some (Cell.first_unique (P := fun d => t.has d) hleast (first?_eq_some h hf))

theorem getLast?_cursor (h : t.Consistent) : t.cursor.toList.getLast? = t.latest? := by
  cases hl : t.latest? with
  | none => simp [(cursor_eq_nil_iff h).mpr (latest?_eq_none_iff.mp hl)]
  | some c =>
    have hne : t.cursor.toList ≠ [] := by
      rw [ne_eq, cursor_eq_nil_iff h, ← latest?_eq_none_iff, hl]
      simp
    have hlast := List.getLast?_eq_some_getLast hne
    have hgreatest := OrderedSet.last?_eq_some (s := ⟨_, t.cursor.toList_ascending⟩) hlast
    simp only [OrderedSet.mem_def, mem_cursor] at hgreatest
    rw [hlast]
    exact congrArg some (Cell.last_unique (P := fun d => t.has d) hgreatest (latest?_eq_some h hl))

end Contents

namespace Timeline
variable {t : Timeline} {qs : List Partition}

/-- Iterating over a timeline to the end gives these partitions. -/
def Iterates (t : Timeline) (qs : List Partition) : Prop :=
  ∃ cs, t.contents.cursor.Gives cs ∧ qs = cs.map t.partitionOf

theorem iterates_iff : t.Iterates qs ↔ qs = t.toList := by
  constructor
  · rintro ⟨cs, hcs, rfl⟩
    rw [hcs.eq_toList]
    rfl
  · rintro rfl
    exact ⟨_, t.contents.cursor.gives_toList, rfl⟩

theorem head?_toList (h : t.Consistent) : t.toList.head? = t.first? := by
  rw [toList, List.head?_map, Contents.head?_cursor h]
  rfl

theorem getLast?_toList (h : t.Consistent) : t.toList.getLast? = t.latest? := by
  rw [toList, List.getLast?_map, Contents.getLast?_cursor h]
  rfl

/-- Iterating over a timeline ends, in whatever state it is, and gives the existing partitions in
ascending order. If the timeline is consistent, its ends are those of what is given. -/
theorem iteration_exact (t : Timeline) :
    (∃ qs, t.Iterates qs) ∧ ∀ qs, t.Iterates qs →
      qs.Pairwise (· < ·) ∧ (∀ q, q ∈ qs ↔ t.has q) ∧
        (t.Consistent →
          t.first? = qs.head? ∧ t.latest? = qs.getLast? ∧ (t.isEmpty ↔ qs = [])) := by
  refine ⟨⟨t.toList, iterates_iff.mpr rfl⟩, ?_⟩
  intro qs hqs
  obtain rfl := iterates_iff.mp hqs
  refine ⟨t.toList_ascending, fun q => mem_toList, ?_⟩
  intro h
  refine ⟨(head?_toList h).symm, (getLast?_toList h).symm, ?_⟩
  rw [← List.head?_eq_none_iff, head?_toList h, isEmpty, Option.isNone_iff_eq_none, first?,
    Option.map_eq_none_iff]

/-- A hole on the first of two loaded ends is not given. Of ends that were added, both are. -/
theorem iteration_exact_of_stray_hole :
    let key : Key := ⟨"events", .daily, "dt"⟩
    let stray : Bag := OrderedMap.ofList
      [("first", "1970-01-01"), ("holes", "1970-01-01,1970-02-01"), ("latest", "1970-01-02")]
    let first : Partition := ⟨.daily, 0, by decide, by decide⟩
    let second : Partition := ⟨.daily, 1, by decide, by decide⟩
    let fourth : Partition := ⟨.daily, 3, by decide, by decide⟩
    let t := (empty key .endsAndHoles).edits [.load stray]
    let u := (empty key .endsAndHoles).edits [.add fourth, .add first, .add second]
    t.Iterates [second] ∧ t.has first = false ∧
      u.Iterates [first, second, fourth] ∧ u.Consistent ∧ u.latest? = some fourth := by
  intro key stray first second fourth t u
  have ht : t.Iterates [second] := iterates_iff.mpr (by decide +kernel)
  have hu : u.Iterates [first, second, fourth] := iterates_iff.mpr rfl
  have hconsistent : u.Consistent := by decide +kernel
  obtain ⟨-, hmem, -⟩ := (iteration_exact t).2 _ ht
  obtain ⟨-, -, hends⟩ := (iteration_exact u).2 _ hu
  refine ⟨ht, ?_, hu, hconsistent, (hends hconsistent).2.1⟩
  rw [Bool.eq_false_iff, ne_eq, ← hmem]
  simp [first, second]

/-- Iterating over what a timeline has in a range gives these partitions. -/
def IteratesWithin (t : Timeline) (r : Range) (qs : List Partition) : Prop :=
  ∃ cursor cs, t.cursorWithin r = .ok cursor ∧ cursor.Gives cs ∧ qs = cs.map t.partitionOf

theorem cursorWithin_of_ne {r : Range} (h : r.period ≠ t.key.period) :
    t.cursorWithin r = .error (.invalidPartition t.key r.lowerEnd) := by
  have hlower := cellOf_of_ne (q := r.lowerEnd) h
  simp [cursorWithin, hlower, bind, Except.bind]

/-- The ends of a range of the timeline's period are cells, and bound its cursor. -/
theorem cursorWithin_of_eq {r : Range} (h : r.period = t.key.period) :
    ∃ lower upper, r.lowerEnd = t.partitionOf lower ∧ r.upperEnd = t.partitionOf upper ∧
      t.cursorWithin r = .ok (t.contents.cursor.within lower upper) := by
  obtain ⟨lower, hlower⟩ := exists_cell (q := r.lowerEnd) h
  obtain ⟨upper, hupper⟩ := exists_cell (q := r.upperEnd) h
  refine ⟨lower, upper, hlower, hupper, ?_⟩
  simp only [cursorWithin, hlower, hupper, cellOf_partitionOf]
  rfl

/-- Within a range of the timeline's period those partitions are given that the range contains. -/
theorem iteratesWithin_iff {r : Range} :
    t.IteratesWithin r qs ↔ r.period = t.key.period ∧ qs = t.toList.filter r.contains := by
  by_cases h : r.period = t.key.period
  · obtain ⟨lower, upper, hlower, hupper, hcursor⟩ := cursorWithin_of_eq h
    have hcontains : ∀ c, r.contains (t.partitionOf c) = decide (lower ≤ c ∧ c < upper) := by
      intro c
      simp [Range.contains, hlower, hupper, partitionOf_le, partitionOf_lt]
    have hlist : (t.contents.cursor.within lower upper).toList.map t.partitionOf =
        t.toList.filter r.contains := by
      simp only [Cursor.toList_within, toList, List.filter_map, Function.comp_def, hcontains]
    simp only [h, true_and, ← hlist]
    constructor
    · rintro ⟨cursor, cs, hok, hgives, rfl⟩
      cases Except.ok.inj (hcursor.symm.trans hok)
      exact congrArg _ hgives.eq_toList
    · rintro rfl
      exact ⟨_, _, hcursor, Cursor.gives_toList _, rfl⟩
  · simp only [h, false_and, iff_false]
    rintro ⟨cursor, cs, hok, -⟩
    cases (cursorWithin_of_ne h).symm.trans hok

theorem cursorWithin_eq_error {r : Range} {e : TimelineError} :
    t.cursorWithin r = .error e ↔
      r.period ≠ t.key.period ∧ e = .invalidPartition t.key r.lowerEnd := by
  by_cases h : r.period = t.key.period
  · obtain ⟨lower, upper, -, -, hcursor⟩ := cursorWithin_of_eq h
    simp [hcursor, h]
  · simp [cursorWithin_of_ne h, h, eq_comm]

/-- Iterating within a range is refused exactly if the range is of another period than the timeline. It
gives otherwise what iterating gives that the range contains, in the same order, whatever state the
timeline is in. -/
theorem iteration_within_eq_filter (t : Timeline) (r : Range) :
    (∀ e, t.cursorWithin r = .error e ↔
      r.period ≠ t.key.period ∧ e = .invalidPartition t.key r.lowerEnd) ∧
    ∃ qs, (∀ ps, t.Iterates ps ↔ ps = qs) ∧
      ∀ rs, t.IteratesWithin r rs ↔ r.period = t.key.period ∧ rs = qs.filter r.contains :=
  ⟨fun _ => cursorWithin_eq_error, t.toList, fun _ => iterates_iff, fun _ => iteratesWithin_iff⟩

/-- A range that starts on a hole which lies on the first end. -/
theorem iteration_within_eq_filter_of_stray_hole :
    let key : Key := ⟨"events", .daily, "dt"⟩
    let stray : Bag := OrderedMap.ofList
      [("first", "1970-01-01"), ("holes", "1970-01-01,1970-01-03"), ("latest", "1970-01-05")]
    let second : Partition := ⟨.daily, 1, by decide, by decide⟩
    let t := ((empty key .endsAndHoles).load stray).1
    let days : Range := ⟨.daily, ⟨0, by decide, by decide⟩, ⟨3, by decide, by decide⟩, by decide⟩
    let weeks : Range := ⟨.weekly, ⟨0, by decide, by decide⟩, ⟨1, by decide, by decide⟩, by decide⟩
    t.IteratesWithin days [second] ∧
      t.cursorWithin weeks = .error (.invalidPartition key weeks.lowerEnd) := by
  intro key stray second t days weeks
  have hkey : t.key = key := (empty key .endsAndHoles).key_load stray
  have hdays : [second] = t.toList.filter days.contains := by decide +kernel
  have hsame : days.period = t.key.period := by rw [hkey]
  have hother : weeks.period ≠ t.key.period := by
    rw [hkey]
    decide
  obtain ⟨-, qs, hqs, hwithin⟩ := iteration_within_eq_filter t days
  obtain rfl : t.toList = qs := (hqs t.toList).mp (iterates_iff.mpr rfl)
  obtain ⟨hrefused, -⟩ := iteration_within_eq_filter t weeks
  refine ⟨(hwithin [second]).mpr ⟨hsame, hdays⟩, (hrefused _).mpr ⟨hother, ?_⟩⟩
  rw [hkey]

end Timeline
end PartitionLedger

import PartitionLedger.Proofs.CursorLookups
import PartitionLedger.Proofs.StoredTimeline
import PartitionLedger.Proofs.Stepping

/-!
Whatever is done to a timeline that keeps starts, nothing that it looks up fails. It holds the starts of the
cells that a timeline of cells holds, answers the same and is stored as the same properties.
-/
namespace PartitionLedger

namespace Contents
variable {p : Period} {c : Cell p} {i : Instant}

theorem starts_empty (p : Period) (s : Strategy) : (empty p s).starts = Starts.empty s := by
  cases s <;> rfl

theorem strategy_starts (t : Contents p) : t.starts.strategy = t.strategy := by
  cases t <;> rfl

theorem map_fst_starts (ends : Option (Ends p)) :
    (ends.map Ends.starts).map Prod.fst = (ends.map Ends.first).map Cell.start := by
  cases ends <;> rfl

theorem map_snd_starts (ends : Option (Ends p)) :
    (ends.map Ends.starts).map Prod.snd = (ends.map Ends.latest).map Cell.start := by
  cases ends <;> rfl

theorem first?_starts (t : Contents p) : t.starts.first? = t.first?.map Cell.start := by
  cases t with
  | listed t => exact CellSet.first?_starts t.partitions
  | holed t => exact map_fst_starts t.ends
  | span t => exact map_fst_starts t.ends

theorem latest?_starts (t : Contents p) : t.starts.latest? = t.latest?.map Cell.start := by
  cases t with
  | listed t => exact CellSet.last?_starts t.partitions
  | holed t => exact map_snd_starts t.ends
  | span t => exact map_snd_starts t.ends

theorem isWithin_start (ends : Option (Ends p)) (c : Cell p) :
    Starts.isWithin c.start (ends.map Ends.starts) =
      ends.any fun ends => ends.first ≤ c ∧ c ≤ ends.latest := by
  cases ends with
  | none => rfl
  | some ends =>
    simp only [Starts.isWithin, Option.map_some, Option.any_some, Ends.starts, Cell.start_le_iff]

theorem has_start (t : Contents p) (c : Cell p) : t.starts.has c.start = t.has c := by
  cases t with
  | listed t => simp only [starts, Starts.has, CellSet.start_mem_starts, has, Listed.has]
  | holed t =>
    simp only [starts, Starts.has, isWithin_start, CellSet.start_mem_starts, has, Holed.has]
  | span t => exact isWithin_start t.ends c

/-- The text of a cell is that of its start. -/
theorem write_starts (cells : CellSet p) : cells.starts.write p = cells.write := by
  simp only [InstantSet.write, CellSet.starts, List.map_map, CellSet.write]
  rfl

theorem encode_starts (t : Contents p) : t.starts.encode p = t.encode := by
  cases t with
  | listed t => simp only [starts, Starts.encode, write_starts, encode, Listed.encode]
  | holed t =>
    obtain ⟨_ | ends, holes⟩ := t
    · simp only [starts, Option.map_none, Starts.encode, write_starts, encode, Holed.encode]
    · simp only [starts, Option.map_some, Ends.starts, Starts.encode, write_starts, encode, Holed.encode]
      rfl
  | span t =>
    obtain ⟨_ | ends⟩ := t
    · rfl
    · rfl

theorem cursor_starts (t : Contents p) : t.starts.cursor = t.cursor.starts := by
  have hfirst := t.first?_starts
  have hlatest := t.latest?_starts
  cases t with
  | listed t => exact congr (congrArg _ hfirst) hlatest
  | holed t => exact congr (congrArg _ hfirst) hlatest
  | span t => exact congr (congrArg _ hfirst) hlatest

/-- Every instant that is kept is where a cell starts. -/
theorem exists_cell_of_kept {t : Contents p} (h : i ∈ t.starts.instants) : ∃ c : Cell p, c.start = i := by
  have hends : ∀ ends : Option (Ends p), i ∈ Starts.bothEnds (ends.map Ends.starts) →
      ∃ c : Cell p, c.start = i := by
    intro ends hi
    cases ends with
    | none => cases hi
    | some ends =>
      obtain rfl | rfl : i = ends.first.start ∨ i = ends.latest.start := by
        simpa [Ends.starts, Starts.bothEnds] using hi
      · exact ⟨ends.first, rfl⟩
      · exact ⟨ends.latest, rfl⟩
  have hset : ∀ cells : CellSet p, i ∈ cells.starts → ∃ c : Cell p, c.start = i := by
    intro cells hi
    obtain ⟨c, -, hc⟩ := CellSet.mem_starts.mp hi
    exact ⟨c, hc⟩
  cases t with
  | listed t => exact hset t.partitions h
  | holed t => exact (List.mem_append.mp h).elim (hends t.ends) (hset t.holes)
  | span t => exact hends t.ends h

theorem isConsistent_starts (t : Contents p) : t.starts.isConsistent p = decide t.Consistent := by
  rw [Bool.eq_iff_iff, decide_eq_true_eq]
  cases t with
  | listed t =>
    refine iff_of_true ?_ trivial
    simp only [starts, Starts.isConsistent, List.all_eq_true, decide_eq_true_eq]
    intro i hi
    obtain ⟨c, -, rfl⟩ := CellSet.mem_starts.mp hi
    exact c.aligned_start
  | holed t =>
    obtain ⟨_ | ⟨first, latest⟩, holes⟩ := t
    · change (CellSet.starts holes).isEmpty = true ↔ ∀ hole, hole ∉ holes
      rw [OrderedSet.isEmpty_iff]
      constructor
      · exact fun h c hc => h c.start (CellSet.start_mem_starts.mpr hc)
      · intro h i hi
        obtain ⟨c, hc, -⟩ := CellSet.mem_starts.mp hi
        exact h c hc
    · simp only [starts, Option.map_some, Ends.starts, Starts.isConsistent, decide_eq_true_eq,
        Cell.start_le_iff, Cell.start_lt_iff, Cell.aligned_start, true_and, and_true, CellSet.starts,
        List.all_map, List.all_eq_true, Function.comp_apply]
      rfl
  | span t =>
    obtain ⟨_ | ⟨first, latest⟩⟩ := t
    · exact iff_of_true rfl trivial
    · simp only [starts, Option.map_some, Ends.starts, Starts.isConsistent, decide_eq_true_eq,
        Cell.start_le_iff, Cell.aligned_start, and_true]
      rfl

theorem add_start (t : Contents p) (c : Cell p) :
    t.starts.add p c.start = .ok ((t.add c).1.starts, (t.add c).2) := by
  cases t with
  | listed t =>
    simp only [starts, Starts.add, CellSet.start_mem_starts, add, Listed.add]
    split
    · rfl
    · rw [← CellSet.starts_insert]
      rfl
  | holed t =>
    obtain ⟨_ | ⟨first, latest⟩, holes⟩ := t
    · rfl
    · simp only [starts, Option.map_some, Ends.starts, Starts.add, Cell.start_lt_iff,
        CellSet.start_mem_starts, add, Holed.add, Starts.punch_start, ok_bind]
      split
      · rfl
      · split
        · rfl
        · split
          · rw [← CellSet.starts_erase]
            rfl
          · rfl
  | span t =>
    obtain ⟨_ | ⟨first, latest⟩⟩ := t
    · rfl
    · simp only [starts, Option.map_some, Ends.starts, Starts.add, Cell.start_lt_iff, add, Span.add]
      split
      · rfl
      · split <;> rfl

theorem drop?_start (t : Contents p) (c : Cell p) :
    t.starts.drop? p c.start = .ok ((t.drop? c).map fun (u, changed) => (u.starts, changed)) := by
  cases t with
  | listed t =>
    simp only [starts, Starts.drop?, CellSet.start_mem_starts, drop?, Listed.drop]
    split
    · rw [← CellSet.starts_erase]
      rfl
    · rfl
  | holed t =>
    obtain ⟨_ | ⟨first, latest⟩, holes⟩ := t
    · rfl
    · simp only [starts, Option.map_some, Ends.starts, Starts.drop?, Cell.start_lt_iff, Cell.start_inj,
        CellSet.start_mem_starts, drop?, Holed.drop]
      split
      · rfl
      · rename_i hin
        split
        · rfl
        · rename_i hne
          obtain ⟨hlow, hhigh, -⟩ : first ≤ c ∧ c ≤ latest ∧ c ∉ holes := by
            simpa only [not_or, Std.not_lt] using hin
          have hlt : first < latest := Cell.lt_of_between hlow hhigh hne
          split
          · rename_i hc
            subst hc
            rw [Starts.collapse_next holes hlt]
            rfl
          · split
            · rename_i hc
              subst hc
              rw [Starts.collapse_previous holes hlt]
              rfl
            · rw [← CellSet.starts_insert]
              rfl
  | span t => rfl

end Contents

/-- The timeline kept by the starts of its partitions. -/
def Timeline.kept (t : Timeline) : Kept := ⟨t.key, t.contents.starts⟩

namespace Timeline
variable {t : Timeline} {q : Partition}

theorem kept_empty (key : Key) (s : Strategy) : (empty key s).kept = Kept.empty key s :=
  congrArg (Kept.mk key) (Contents.starts_empty key.period s)

theorem add_kept (t : Timeline) (q : Partition) : t.kept.add q = .ok ((t.add q).1.kept, (t.add q).2) := by
  by_cases hq : q.period = t.key.period
  · obtain ⟨c, rfl⟩ := exists_cell hq
    rw [add_partitionOf]
    refine (if_pos hq).trans ?_
    change (t.contents.starts.add t.key.period c.start >>= _) = _
    rw [Contents.add_start, ok_bind]
    rfl
  · rw [add_of_ne hq]
    exact if_neg hq

theorem drop_kept (t : Timeline) (q : Partition) :
    t.kept.drop q = .ok ((t.drop q).1.kept, (t.drop q).2) := by
  by_cases hq : q.period = t.key.period
  · obtain ⟨c, rfl⟩ := exists_cell hq
    rw [drop_partitionOf]
    refine (if_pos hq).trans ?_
    change (t.contents.starts.drop? t.key.period c.start >>= _) = _
    rw [Contents.drop?_start, ok_bind]
    cases t.contents.drop? c <;> rfl
  · rw [drop_of_ne hq]
    exact if_neg hq

theorem addAll_kept (t : Timeline) (qs : List Partition) :
    t.kept.addAll qs = .ok ((t.addAll qs).1.kept, (t.addAll qs).2) := by
  induction qs generalizing t with
  | nil => rfl
  | cons q rest ih =>
    simp only [Kept.addAll, add_kept, ok_bind]
    rcases hadd : t.add q with ⟨u, e | changed⟩
    · rw [addAll_cons_error hadd]
      rfl
    · rw [addAll_cons_ok hadd]
      simp only [ih, ok_bind]
      rfl

theorem load_kept (t : Timeline) (bag : Bag) :
    t.kept.load bag = ((t.load bag).1.kept, (t.load bag).2) := by
  have hdecode : Contents.decode t.kept.key.period bag t.kept.starts.strategy =
      Contents.decode t.key.period bag t.strategy :=
    congrArg (Contents.decode t.key.period bag) t.contents.strategy_starts
  have hempty : Kept.empty t.kept.key t.kept.starts.strategy = (empty t.key t.strategy).kept := by
    rw [kept_empty]
    exact congrArg (Kept.empty t.key) t.contents.strategy_starts
  simp only [Kept.load, load, hdecode, hempty]
  cases Contents.decode t.key.period bag t.strategy with
  | error e => rfl
  | ok contents =>
    change (Kept.mk t.key contents.starts, Except.ok (contents.starts.isConsistent t.key.period)) = _
    rw [contents.isConsistent_starts]
    rfl

theorem edit_kept (t : Timeline) (e : Edit) : t.kept.edit e = .ok ((t.edit e).1.kept, (t.edit e).2) := by
  cases e with
  | add q => exact t.add_kept q
  | addAll qs => exact t.addAll_kept qs
  | addRange r =>
    simp only [edit, addRange_eq_addAll]
    exact t.addAll_kept r.toList
  | drop q => exact t.drop_kept q
  | load bag => exact congrArg Except.ok (t.load_kept bag)

/-- A sequence of changes looks up nothing that fails. -/
theorem edits_kept (t : Timeline) (es : List Edit) : t.kept.edits es = .ok (t.edits es).kept := by
  induction es generalizing t with
  | nil => rfl
  | cons e es ih =>
    have hrest := ih (t.edit e).1
    simp only [Kept.edits, List.foldlM_cons, edit_kept, ok_bind]
    exact hrest

/-- What an end is looked up by is the start of a cell. -/
theorem mapM_holding? {p : Period} (c : Option (Cell p)) :
    (c.map Cell.start).mapM (Partition.holding p) = .ok (c.map (⟨p, ·⟩)) := by
  cases c with
  | none => rfl
  | some c => exact congrArg (Functor.map some) (Partition.holding_start c)

theorem has_kept (t : Timeline) (q : Partition) : t.kept.has q = t.has q := by
  by_cases hq : q.period = t.key.period
  · obtain ⟨c, rfl⟩ := exists_cell hq
    rw [has_partitionOf, ← Contents.has_start]
    exact Bool.and_eq_right_iff_imp.mpr fun _ => decide_eq_true hq
  · have hcell : q.cellIn? t.key.period = none := dif_neg hq
    have hother : decide (q.period = t.kept.key.period) = false := decide_eq_false hq
    rw [has, hcell, Kept.has, hother]
    rfl

theorem encode_kept (t : Timeline) : t.kept.encode = t.encode := t.contents.encode_starts

theorem first?_kept (t : Timeline) : t.kept.first? = .ok t.first? := by
  have hfirst : t.kept.starts.first? = _ := t.contents.first?_starts
  rw [Kept.first?, hfirst]
  exact mapM_holding? t.contents.first?

theorem latest?_kept (t : Timeline) : t.kept.latest? = .ok t.latest? := by
  have hlatest : t.kept.starts.latest? = _ := t.contents.latest?_starts
  rw [Kept.latest?, hlatest]
  exact mapM_holding? t.contents.latest?

/-- The cells that start at the instants of a list are looked up one after the other. -/
theorem mapM_holding {p : Period} (cs : List (Cell p)) :
    (cs.map Cell.start).mapM (Partition.holding p) = .ok (cs.map (⟨p, ·⟩)) := by
  induction cs with
  | nil => rfl
  | cons c cs ih =>
    simp only [List.map_cons, List.mapM_cons, Partition.holding_start, ok_bind, ih]
    rfl

theorem holes_kept (t : Timeline) : t.kept.holes = .ok t.holes := by
  obtain ⟨key, contents⟩ := t
  cases contents with
  | listed t => rfl
  | holed t => exact mapM_holding t.holes.toList
  | span t => rfl

end Timeline

namespace Starts.Cursor
variable {p : Period}

theorem within_starts (cursor : PartitionLedger.Cursor p) {lower upper : Cell p} (h : lower ≤ upper) :
    Cursor.within ⟨p, lower, upper, h⟩ cursor.starts = (cursor.within lower upper).starts := by
  obtain ⟨source, next, last⟩ := cursor
  simp only [Cursor.within, Range.upperEnd, Partition.previous?, Range.isEmpty, Range.lowerEnd,
    PartitionLedger.Cursor.within]
  cases upper.previous? with
  | none => rfl
  | some stop =>
    simp only [Option.map_some, beq_iff_eq]
    by_cases he : lower = upper
    · rw [if_pos he, if_neg (he ▸ Std.lt_irrefl)]
      rfl
    · have hlt : lower < upper := Cell.lt_of_between (Std.le_refl lower) h he
      rw [if_neg he, if_pos hlt]
      simp only [PartitionLedger.Cursor.starts, Option.map_map, Function.comp_def, Cell.start_max,
        Cell.start_min]
      rfl

end Starts.Cursor

namespace Timeline
variable {t : Timeline}

/-- Any number of steps of a cursor over the timeline gives as many of the existing partitions, or all. -/
theorem walk_kept (t : Timeline) (n : Nat) :
    ∃ rest, t.kept.starts.cursor.walk t.key.period n = .ok (t.toList.take n, rest) := by
  have hcursor : t.kept.starts.cursor = t.contents.cursor.starts := t.contents.cursor_starts
  obtain ⟨after, -, hwalk, -⟩ := (Starts.Cursor.agrees_starts t.contents.cursor).walk n
  rw [hcursor, toList, ← List.map_take]
  exact ⟨after, hwalk⟩

theorem walkWithin_kept {r : Range} (hr : r.period = t.key.period) :
    ∃ cursor qs, t.kept.cursorWithin r = .ok cursor ∧ t.toListWithin r = .ok qs ∧
      ∀ n, ∃ rest, cursor.walk t.key.period n = .ok (qs.take n, rest) := by
  obtain ⟨p, lower, upper, ordered⟩ := r
  cases hr
  let within := t.contents.cursor.within lower upper
  have hkept : t.kept.cursorWithin ⟨t.key.period, lower, upper, ordered⟩ = .ok within.starts := by
    have hcursor : t.kept.starts.cursor = t.contents.cursor.starts := t.contents.cursor_starts
    refine (if_pos rfl).trans ?_
    rw [hcursor, Starts.Cursor.within_starts]
    rfl
  refine ⟨within.starts, within.toList.map t.partitionOf, hkept, ?_, ?_⟩
  · have hlower := t.cellOf_partitionOf lower
    have hupper := t.cellOf_partitionOf upper
    simp only [partitionOf] at hlower hupper
    simp only [toListWithin, cursorWithin, Range.lowerEnd, Range.upperEnd, hlower, hupper]
    rfl
  · intro n
    obtain ⟨after, -, hwalk, -⟩ := (Starts.Cursor.agrees_starts within).walk n
    rw [← List.map_take]
    exact ⟨after, hwalk⟩

end Timeline

namespace Partition
variable {p : Period} {q r : Partition} {i : Instant} {value : String} {n : Int}

theorem proper (q : Partition) : q.period.Aligned q.start ∧ q.start.Supported :=
  ⟨q.cell.aligned_start, q.cell.year_start⟩

theorem named?_of_read (h : read p value = .ok q) : q.period = p ∧ p.named? value = some q.start := by
  obtain ⟨c, hc, rfl⟩ := map_eq_ok.mp h
  rw [← Cell.text_of_read hc]
  exact ⟨rfl, c.named?_text⟩

theorem offset_of_offset? (h : q.offset? n = some r) :
    r.period = q.period ∧ q.period.offset q.start n = some r.start := by
  obtain ⟨c, hc, rfl⟩ := Option.map_eq_some_iff.mp h
  have hstart := q.cell.map_start_offset? n
  rw [hc, Option.map_some] at hstart
  exact ⟨rfl, (Option.filter_eq_some_iff.mp hstart.symm).1⟩

end Partition

namespace Timeline

/-- A partition that holds an instant, is read from a text or lies a number of periods from another one
starts where the calendar says, and every partition starts at a boundary of its period in the years 0 to
9999. So does what a timeline keeps after any changes, inconsistent loads among them: none of its look-ups
has failed, and none fails in a further change, when its ends and holes are asked for, or in any number of
steps of a cursor over it. Asking for a partition and writing the properties look nothing up, and give what
they give for the timeline of cells. -/
theorem lookups_succeed :
    (∀ p i q, Partition.holding p i = .ok q → q.period = p ∧ p.truncate i = some q.start) ∧
    (∀ p value q, Partition.read p value = .ok q → q.period = p ∧ p.named? value = some q.start) ∧
    (∀ (q r : Partition) n, q.offset? n = some r →
      r.period = q.period ∧ q.period.offset q.start n = some r.start) ∧
    (∀ q : Partition, q.period.Aligned q.start ∧ q.start.Supported) ∧
    ∀ (key : Key) (s : Strategy) (es : List Edit),
      let t := (empty key s).edits es
      (Kept.empty key s).edits es = .ok t.kept ∧
      (∀ i ∈ t.kept.starts.instants, key.period.Aligned i ∧ i.Supported) ∧
      (∀ e, t.kept.edit e = .ok ((t.edit e).1.kept, (t.edit e).2)) ∧
      t.kept.first? = .ok t.first? ∧ t.kept.latest? = .ok t.latest? ∧ t.kept.holes = .ok t.holes ∧
      (∀ q, t.kept.has q = t.has q) ∧ t.kept.encode = t.encode ∧
      (∀ n, ∃ rest, t.kept.starts.cursor.walk key.period n = .ok (t.toList.take n, rest)) ∧
      ∀ r : Range, r.period = key.period → ∃ cursor qs,
        t.kept.cursorWithin r = .ok cursor ∧ t.toListWithin r = .ok qs ∧
        ∀ n, ∃ rest, cursor.walk key.period n = .ok (qs.take n, rest) := by
  refine ⟨fun _ _ _ => Partition.holding_eq_ok.mp, fun _ _ _ => Partition.named?_of_read,
    fun _ _ _ => Partition.offset_of_offset?, Partition.proper, ?_⟩
  intro key s es t
  have hkey : t.key = key := key_edits (empty key s) es
  have hkept : (Kept.empty key s).edits es = .ok t.kept := by
    rw [← kept_empty]
    exact edits_kept (empty key s) es
  refine ⟨hkept, ?_, t.edit_kept, t.first?_kept, t.latest?_kept, t.holes_kept, t.has_kept, t.encode_kept,
    ?_, ?_⟩
  · intro i hi
    obtain ⟨c, rfl⟩ := Contents.exists_cell_of_kept hi
    rw [← hkey]
    exact ⟨c.aligned_start, c.year_start⟩
  · rw [← hkey]
    exact t.walk_kept
  · rw [← hkey]
    exact fun r => walkWithin_kept

/-- The last partition of all is loaded as a hole, which no consistent timeline has at its end, and so is one
far before the first. A cursor passes the hole at the end and leaves the years of partitions. -/
theorem lookups_succeed_of_stray_holes :
    let key : Key := ⟨"events", .daily, "dt"⟩
    let stray : Bag := OrderedMap.ofList
      [("first", "9999-12-30"), ("holes", "0001-01-01,9999-12-31"), ("latest", "9999-12-31")]
    let last : Partition := ⟨.daily, 2932896, by decide, by decide⟩
    let lastButOne : Partition := ⟨.daily, 2932895, by decide, by decide⟩
    ∃ t : Kept, (Kept.empty key .endsAndHoles).edits [.load stray] = .ok t ∧
      t.starts.isConsistent .daily = false ∧ t.latest? = .ok (some last) ∧
      (∃ rest, t.starts.cursor.walk .daily 3 = .ok ([lastButOne], rest)) ∧
      ∃ after, t.edit (.drop lastButOne) = .ok (after, .ok true) := by
  intro key stray last lastButOne
  let t := (empty key .endsAndHoles).edits [.load stray]
  obtain ⟨-, -, -, -, hkept⟩ := lookups_succeed
  obtain ⟨hedits, -, hedit, -, hlatest, -, -, -, hwalk, -⟩ := hkept key .endsAndHoles [.load stray]
  have hlist : t.toList = [lastButOne] := by decide +kernel
  have hlast : t.latest? = some last := by decide +kernel
  have hstray : t.kept.starts.isConsistent .daily = false := by decide +kernel
  have hdropped : (t.edit (.drop lastButOne)).2.toOption = some true := by decide +kernel
  refine ⟨t.kept, hedits, hstray, hlatest.trans (congrArg Except.ok hlast), ?_, ?_⟩
  · obtain ⟨rest, hrest⟩ := hwalk 3
    rw [hlist] at hrest
    exact ⟨rest, hrest⟩
  · have hafter := hedit (.drop lastButOne)
    cases hd : (t.edit (.drop lastButOne)).2 with
    | error e =>
      rw [hd] at hdropped
      cases hdropped
    | ok changed =>
      rw [hd] at hdropped
      obtain rfl := Option.some.inj hdropped
      exact ⟨_, hafter.trans (congrArg _ (congrArg _ hd))⟩

end Timeline
end PartitionLedger

import Mathlib.Data.List.Chain
import PartitionLedger.Proofs.Iteration
import PartitionLedger.Proofs.StoredTimeline

/-!
A timeline that keeps its ends only is the hull of a list of the partitions added: it has the same ends,
and every partition between two that were added exists in it. Dropping is refused and changes nothing.
-/
namespace PartitionLedger

/-- A run of cells goes from each to the next. -/
theorem Cell.run_isChain {p : Period} {a : Cell p} {n : Nat} :
    (a.run n).IsChain fun c d => c.next? = some d := by
  induction n generalizing a with
  | zero => exact .nil
  | succ n ih =>
    simp only [run]
    cases hd : a.next? with
    | none => exact .singleton a
    | some d =>
      cases n with
      | zero => exact .singleton a
      | succ n => exact .cons_cons hd ih

namespace Span
variable {p : Period} {t : Span p} {u : Listed p} {c : Cell p}

/-- Adding moves the ends to those of the list that has the cell as well. -/
theorem ends_add (hf : t.first? = u.first?) (hl : t.latest? = u.latest?) :
    (t.add c).1.first? = (u.add c).1.first? ∧ (t.add c).1.latest? = (u.add c).1.latest? := by
  have ends : ∀ first latest,
      ((first ∈ u.partitions ∨ first = c) ∧ first ≤ c ∧ ∀ d ∈ u.partitions, first ≤ d) →
      ((latest ∈ u.partitions ∨ latest = c) ∧ c ≤ latest ∧ ∀ d ∈ u.partitions, d ≤ latest) →
      some first = (u.add c).1.first? ∧ some latest = (u.add c).1.latest? := by
    rintro first latest ⟨hfirst, hfc, hleast⟩ ⟨hlatest, hlc, hgreatest⟩
    constructor
    · refine (OrderedSet.first?_eq_some_iff.mpr ⟨Listed.mem_add.mpr hfirst, ?_⟩).symm
      intro d hd
      rcases Listed.mem_add.mp hd with hd | rfl
      · exact hleast d hd
      · exact hfc
    · refine (OrderedSet.last?_eq_some_iff.mpr ⟨Listed.mem_add.mpr hlatest, ?_⟩).symm
      intro d hd
      rcases Listed.mem_add.mp hd with hd | rfl
      · exact hgreatest d hd
      · exact hlc
  rcases t with ⟨_ | ⟨first, latest⟩⟩
  · have hnone : ∀ d, d ∉ u.partitions := OrderedSet.first?_eq_none_iff.mp hf.symm
    exact ends c c ⟨Or.inr rfl, Int.le_refl _, fun d hd => absurd hd (hnone d)⟩
      ⟨Or.inr rfl, Int.le_refl _, fun d hd => absurd hd (hnone d)⟩
  · obtain ⟨hfirst, hleast⟩ := OrderedSet.first?_eq_some hf.symm
    obtain ⟨hlatest, hgreatest⟩ := OrderedSet.last?_eq_some hl.symm
    have hle : first ≤ latest := hleast latest hlatest
    simp only [add]
    split
    · rename_i hlow
      have hc := Std.le_of_lt hlow
      exact ends c latest ⟨Or.inr rfl, Int.le_refl _, fun d hd => Std.le_trans hc (hleast d hd)⟩
        ⟨Or.inl hlatest, Std.le_trans hc hle, hgreatest⟩
    · rename_i hlow
      have hfc := Std.not_lt.mp hlow
      split
      · rename_i hhigh
        have hc := Std.le_of_lt hhigh
        exact ends first c ⟨Or.inl hfirst, hfc, hleast⟩
          ⟨Or.inr rfl, Int.le_refl _, fun d hd => Std.le_trans (hgreatest d hd) hc⟩
      · rename_i hhigh
        exact ends first latest ⟨Or.inl hfirst, hfc, hleast⟩
          ⟨Or.inl hlatest, Std.not_lt.mp hhigh, hgreatest⟩

/-- Adding is a change exactly if the cell lies outside of the ends, or there are none. -/
theorem add_changed :
    (t.add c).2 ↔ t.first? = none ∨ ∃ first ∈ t.first?, ∃ latest ∈ t.latest?, c < first ∨ latest < c := by
  rcases t with ⟨_ | ⟨first, latest⟩⟩
  · simp [add, first?]
  · by_cases hlow : c < first <;> by_cases hhigh : latest < c <;>
      simp [add, first?, latest?, hlow, hhigh]

theorem toList_cursor_isChain (t : Span p) : t.cursor.toList.IsChain fun c d => c.next? = some d := by
  have hall : ∀ cells : List (Cell p), cells.filter (· ∉ (∅ : CellSet p)) = cells := by
    intro cells
    refine List.filter_eq_self.mpr fun d _ => decide_eq_true OrderedSet.not_mem_empty
  rcases t with ⟨_ | ⟨first, latest⟩⟩
  · exact .nil
  · simp only [cursor, first?, latest?, Option.map_some, Cursor.toList, Source.between, hall]
    split
    · exact Cell.run_isChain
    · exact .nil

end Span

/-- The edit makes partitions exist. -/
def Edit.adds : Edit → Bool
  | .add _ | .addAll _ | .addRange _ => true
  | .drop _ | .load _ => false

namespace Timeline
variable {t u : Timeline} {q : Partition} {es : List Edit}

/-- A timeline of ends and a list of partitions for one key, with the same ends. -/
inductive SameEnds : Timeline → Timeline → Prop where
  | intro (key : Key) (ends : Span key.period) (list : Listed key.period)
    (first? : ends.first? = list.first?) (latest? : ends.latest? = list.latest?) :
    SameEnds ⟨key, .span ends⟩ ⟨key, .listed list⟩

theorem SameEnds.ofEmpty (key : Key) : SameEnds (empty key .continuous) (empty key .storeAll) :=
  .intro key Span.empty Listed.empty rfl rfl

namespace SameEnds

theorem key (h : SameEnds t u) : t.key = u.key := by
  cases h
  rfl

theorem add (h : SameEnds t u) (q : Partition) : SameEnds (t.add q).1 (u.add q).1 := by
  by_cases hq : q.period = t.key.period
  · obtain ⟨key, ends, list, hf, hl⟩ := h
    obtain ⟨c, rfl⟩ := exists_cell hq
    obtain ⟨hf', hl'⟩ := Span.ends_add (c := c) hf hl
    have hspan := add_partitionOf ⟨key, .span ends⟩ c
    have hlist := add_partitionOf ⟨key, .listed list⟩ c
    simp only [partitionOf] at hspan hlist ⊢
    rw [hspan, hlist]
    exact .intro key _ _ hf' hl'
  · rw [add_of_ne hq, add_of_ne (h.key ▸ hq)]
    exact h

/-- Both stop at the same partition if one is refused. -/
theorem addAll (h : SameEnds t u) (qs : List Partition) : SameEnds (t.addAll qs).1 (u.addAll qs).1 := by
  induction qs generalizing t u with
  | nil => exact h
  | cons q rest ih =>
    by_cases hq : q.period = t.key.period
    · obtain ⟨flag, ht⟩ := exists_add_eq_ok hq
      obtain ⟨flag', hu⟩ := exists_add_eq_ok (h.key ▸ hq)
      rw [addAll_cons_ok ht, addAll_cons_ok hu]
      exact ih (h.add q)
    · rw [addAll_cons_error (add_of_ne hq), addAll_cons_error (add_of_ne (h.key ▸ hq))]
      exact h

/-- Nothing can be dropped from the timeline of ends. -/
theorem drop (h : SameEnds t u) (q : Partition) :
    t.drop q = (t, .error
      (if q.period = t.key.period then .dropUnsupported t.key else .invalidPartition t.key q)) := by
  by_cases hq : q.period = t.key.period
  · rw [if_pos hq]
    obtain ⟨key, ends, list, -, -⟩ := h
    obtain ⟨c, rfl⟩ := exists_cell hq
    exact drop_partitionOf _ c
  · rw [if_neg hq]
    exact drop_of_ne hq

theorem edit (h : SameEnds t u) {e : Edit} (he : ¬ e.Loads) :
    SameEnds (t.edit e).1 (if e.adds then (u.edit e).1 else u) := by
  cases e with
  | add q => exact h.add q
  | addAll qs => exact h.addAll qs
  | addRange r =>
    simp only [Timeline.edit, addRange_eq_addAll]
    exact h.addAll r.toList
  | drop q =>
    have hdrop : (t.edit (.drop q)).1 = t := congrArg Prod.fst (h.drop q)
    rw [hdrop]
    exact h
  | load bag => exact absurd ⟨bag, rfl⟩ he

theorem edits (h : SameEnds t u) (hes : ∀ e ∈ es, ¬ e.Loads) :
    SameEnds (t.edits es) (u.edits (es.filter Edit.adds)) := by
  induction es generalizing t u with
  | nil => exact h
  | cons e rest ih =>
    obtain ⟨he, hrest⟩ := List.forall_mem_cons.mp hes
    have hnext := ih (h.edit he) hrest
    cases hadds : e.adds with
    | true =>
      rw [List.filter_cons_of_pos hadds]
      rw [hadds] at hnext
      exact hnext
    | false =>
      rw [List.filter_cons_of_neg (by simp [hadds])]
      rw [hadds] at hnext
      exact hnext

variable (h : SameEnds t u)
include h

theorem shown : t.first? = u.first? ∧ t.latest? = u.latest? ∧ t.isEmpty = u.isEmpty := by
  obtain ⟨key, ends, list, hf, hl⟩ := h
  refine ⟨?_, ?_, ?_⟩
  · exact congrArg (Option.map _) hf
  · exact congrArg (Option.map _) hl
  · exact congrArg Option.isNone hf

theorem consistent : t.Consistent := by
  obtain ⟨key, _ | ⟨first, latest⟩, list, hf, hl⟩ := h
  · trivial
  · have hlatest := (OrderedSet.last?_eq_some hl.symm).1
    exact (OrderedSet.first?_eq_some hf.symm).2 latest hlatest

/-- What exists lies between two partitions of the list. -/
theorem has_iff : t.has q ↔ ∃ a b, u.has a ∧ u.has b ∧ a ≤ q ∧ q ≤ b := by
  obtain ⟨key, ends, list, hf, hl⟩ := h
  let spanned : Timeline := ⟨key, .span ends⟩
  let listed : Timeline := ⟨key, .listed list⟩
  constructor
  · intro hq
    obtain ⟨c, rfl, hc⟩ := Timeline.has_iff.mp hq
    rcases ends with ⟨_ | ⟨first, latest⟩⟩
    · cases hc
    · obtain ⟨hlow, hhigh⟩ := Contents.span_iff.mp hc
      have hfirst : first ∈ list.partitions := (OrderedSet.first?_eq_some hf.symm).1
      have hlatest : latest ∈ list.partitions := (OrderedSet.last?_eq_some hl.symm).1
      exact ⟨listed.partitionOf first, listed.partitionOf latest,
        (has_partitionOf listed first).trans (Contents.listed_iff.mpr hfirst),
        (has_partitionOf listed latest).trans (Contents.listed_iff.mpr hlatest),
        partitionOf_le.mpr hlow, partitionOf_le.mpr hhigh⟩
  · rintro ⟨q', r', hq', hr', hlow, hhigh⟩
    obtain ⟨a, rfl, ha⟩ := Timeline.has_iff.mp hq'
    obtain ⟨b, rfl, hb⟩ := Timeline.has_iff.mp hr'
    obtain ⟨c, rfl⟩ := exists_cell (t := spanned) (Partition.period_eq_of_le hlow).symm
    obtain ⟨⟨first, hfirst, hle⟩, -⟩ := Contents.listed_between (Contents.listed_iff.mp ha)
    obtain ⟨-, latest, hlatest, hge⟩ := Contents.listed_between (Contents.listed_iff.mp hb)
    have hends : ends = ⟨some ⟨first, latest⟩⟩ := by
      rcases ends with ⟨_ | ends⟩
      · cases hf.trans hfirst
      · cases hf.trans hfirst
        cases hl.trans hlatest
        rfl
    rw [has_partitionOf]
    subst hends
    exact Contents.span_iff.mpr ⟨Std.le_trans hle (partitionOf_le.mp hlow),
      Std.le_trans (partitionOf_le.mp hhigh) hge⟩

/-- Iterating goes from the first partition to the latest, from each to the next. -/
theorem toList_run :
    t.toList.head? = t.first? ∧ t.toList.getLast? = t.latest? ∧
      t.toList.IsChain fun a b => a.next? = some b := by
  refine ⟨head?_toList h.consistent, getLast?_toList h.consistent, ?_⟩
  obtain ⟨key, ends, list, -, -⟩ := h
  refine (List.isChain_map _).mpr (ends.toList_cursor_isChain.imp ?_)
  intro c d hcd
  exact congrArg (Option.map (Partition.mk key.period)) hcd

/-- An addition is a change exactly if the partition lies outside of the ends, or there are none. -/
theorem add_changed (hq : q.period = t.key.period) :
    ∃ changed, (t.add q).2 = .ok changed ∧ (changed = true ↔
      t.isEmpty ∨ ∃ first ∈ t.first?, ∃ latest ∈ t.latest?, q < first ∨ latest < q) := by
  obtain ⟨key, ends, list, -, -⟩ := h
  let spanned : Timeline := ⟨key, .span ends⟩
  obtain ⟨c, rfl⟩ := exists_cell (t := spanned) hq
  refine ⟨(ends.add c).2, congrArg Prod.snd (add_partitionOf spanned c), ?_⟩
  rw [Span.add_changed]
  rcases ends with ⟨_ | ⟨first, latest⟩⟩
  · exact iff_of_true (Or.inl rfl) (Or.inl rfl)
  · constructor
    · rintro (hnone | ⟨_, ⟨⟩, _, ⟨⟩, hout⟩)
      · cases hnone
      · exact Or.inr ⟨_, rfl, _, rfl, hout.imp partitionOf_lt.mpr partitionOf_lt.mpr⟩
    · rintro (hnone | ⟨_, ⟨⟩, _, ⟨⟩, hout⟩)
      · cases hnone
      · exact Or.inr ⟨_, rfl, _, rfl, hout.imp partitionOf_lt.mp partitionOf_lt.mp⟩

end SameEnds

/-- A timeline of ends to which partitions were added is the hull of the list of the same additions. The
ends are those of the list, all between two partitions of the list exist, and iterating goes from the first to
the latest, from each partition to the next. An addition is a change exactly outside of the ends. Dropping is
refused. -/
theorem span_is_hull (key : Key) (es : List Edit) (hes : ∀ e ∈ es, ¬ e.Loads) :
    let t := (empty key .continuous).edits es
    let u := (empty key .storeAll).edits (es.filter Edit.adds)
    (t.first? = u.first? ∧ t.latest? = u.latest? ∧ t.isEmpty = u.isEmpty) ∧
    (∀ q, t.has q ↔ ∃ a b, u.has a ∧ u.has b ∧ a ≤ q ∧ q ≤ b) ∧
    (∃ qs, (∀ ps, t.Iterates ps ↔ ps = qs) ∧ qs.head? = t.first? ∧ qs.getLast? = t.latest? ∧
      qs.IsChain fun a b => a.next? = some b) ∧
    (∀ q, q.period = key.period → ∃ changed, (t.add q).2 = .ok changed ∧ (changed = true ↔
      t.isEmpty ∨ ∃ first ∈ t.first?, ∃ latest ∈ t.latest?, q < first ∨ latest < q)) ∧
    (∀ q, q.period ≠ key.period → (t.add q).2 = .error (.invalidPartition key q)) ∧
    ∀ q, t.drop q = (t, .error
      (if q.period = key.period then .dropUnsupported key else .invalidPartition key q)) := by
  intro t u
  have h : SameEnds t u := (SameEnds.ofEmpty key).edits hes
  have hkey : t.key = key := key_edits _ es
  refine ⟨h.shown, fun q => h.has_iff, ⟨t.toList, fun ps => iterates_iff, h.toList_run⟩, ?_, ?_, ?_⟩
  · intro q hq
    exact h.add_changed (hkey.symm ▸ hq)
  · intro q hq
    rw [add_of_ne (hkey.symm ▸ hq), hkey]
  · intro q
    rw [h.drop, hkey]

/-- The days 2 and 5 are added, and a week in between is refused with the day after it. Day 3 exists, and
cannot be dropped. -/
theorem span_is_hull_of_refused_week :
    let key : Key := ⟨"events", .daily, "dt"⟩
    let second : Partition := ⟨.daily, 2, by decide, by decide⟩
    let third : Partition := ⟨.daily, 3, by decide, by decide⟩
    let fifth : Partition := ⟨.daily, 5, by decide, by decide⟩
    let ninth : Partition := ⟨.daily, 9, by decide, by decide⟩
    let week : Partition := ⟨.weekly, 0, by decide, by decide⟩
    let t := (empty key .continuous).edits [.add fifth, .drop fifth, .addAll [second, week, ninth]]
    t.has third ∧ t.latest? = some fifth ∧ (t.add third).2 = .ok false ∧
      t.drop third = (t, .error (.dropUnsupported key)) := by
  intro key second third fifth ninth week t
  have hes : ∀ e ∈ [Edit.add fifth, .drop fifth, .addAll [second, week, ninth]], ¬ e.Loads := by
    simp [Edit.Loads]
  obtain ⟨⟨-, hlatest, -⟩, hhas, -, hadd, -, hdrop⟩ := span_is_hull key _ hes
  obtain ⟨changed, hok, hchanged⟩ := hadd third rfl
  refine ⟨(hhas third).mpr ⟨second, fifth, ?_, ?_, ?_, ?_⟩, hlatest, ?_, hdrop third⟩
  · decide +kernel
  · decide +kernel
  · decide +kernel
  · decide +kernel
  · cases changed with
    | false => exact hok
    | true =>
      rcases hchanged.mp rfl with hempty | ⟨_, ⟨⟩, _, ⟨⟩, hout⟩
      · cases hempty
      · revert hout
        decide +kernel

end Timeline
end PartitionLedger

import PartitionLedger.Proofs.Holes
import PartitionLedger.Timeline.Basic

/-!
What a timeline shows follows from which partitions exist: its ends, its list and what is listed
within a range are those of the set, whichever strategy it is kept by.
-/
namespace PartitionLedger

namespace Cell
variable {p : Period} {a b c : Cell p}

theorem max_le_iff : max a b ≤ c ↔ a ≤ c ∧ b ≤ c := by
  change (if a ≤ b then b else a) ≤ c ↔ _
  split <;> rename_i h <;> simp only [le_def] at h ⊢ <;> omega

theorem le_min_iff : c ≤ min a b ↔ c ≤ a ∧ c ≤ b := by
  change c ≤ (if a ≤ b then a else b) ↔ _
  split <;> rename_i h <;> simp only [le_def] at h ⊢ <;> omega

theorem le_of_previous? (h : b.previous? = some a) : c ≤ a ↔ c < b := by
  have hb := previous?_eq_some.mp h
  simp only [le_def, lt_def]
  omega

theorem not_lt_of_previous?_none (h : b.previous? = none) : ¬ c < b := by
  intro hlt
  have hc := c.first_le
  have hb := b.le_last
  rw [lt_def] at hlt
  have hp : b.previous? = some ⟨b.number - 1, by omega, by omega⟩ :=
    previous?_eq_some.mpr (by simp)
  rw [h] at hp
  cases hp

/-- A first cell with a property is the only one. -/
theorem first_unique {P : Cell p → Prop} (ha : P a ∧ ∀ d, P d → a ≤ d) (hb : P b ∧ ∀ d, P d → b ≤ d) :
    a = b := by
  have hab := ha.2 b hb.1
  have hba := hb.2 a ha.1
  rw [le_def] at hab hba
  exact ext_number (by omega)

theorem last_unique {P : Cell p → Prop} (ha : P a ∧ ∀ d, P d → d ≤ a) (hb : P b ∧ ∀ d, P d → d ≤ b) :
    a = b := by
  have hab := ha.2 b hb.1
  have hba := hb.2 a ha.1
  rw [le_def] at hab hba
  exact ext_number (by omega)

end Cell

namespace Cursor
variable {p : Period} {lower upper c : Cell p}

/-- What is left of a cursor within bounds is what it gives that lies within them. -/
theorem mem_within (cursor : Cursor p) :
    c ∈ (cursor.within lower upper).toList ↔ c ∈ cursor.toList ∧ lower ≤ c ∧ c < upper := by
  obtain ⟨source, next, last⟩ := cursor
  simp only [within]
  cases hu : upper.previous? with
  | none =>
    have hc := Cell.not_lt_of_previous?_none (c := c) hu
    simp [mem_toList, hc]
  | some stop =>
    dsimp only
    split
    · have hstop := Cell.le_of_previous? (c := c) hu
      cases next <;> cases last <;>
        simp only [mem_toList, Option.map_none, Option.map_some, Option.mem_def, reduceCtorEq,
          Option.some.injEq, exists_eq_left', false_and, exists_false, and_false,
          Cell.max_le_iff, Cell.le_min_iff, hstop]
      constructor
      · rintro ⟨⟨hn, hl⟩, ⟨hlast, hup⟩, hmem⟩
        exact ⟨⟨hn, hlast, hmem⟩, hl, hup⟩
      · rintro ⟨⟨hn, hlast, hmem⟩, hl, hup⟩
        exact ⟨⟨hn, hl⟩, ⟨hlast, hup⟩, hmem⟩
    · rename_i h
      have hout : ¬ (lower ≤ c ∧ c < upper) := fun hc => h (Std.lt_of_le_of_lt hc.1 hc.2)
      simp [mem_toList, hout]

end Cursor

theorem Listed.has_iff {p : Period} {t : Listed p} {c : Cell p} : t.has c ↔ c ∈ t.partitions := by
  simp [has]

namespace Contents
variable {p : Period} {t u : Contents p} {c : Cell p}

/-- Members of a set lie between its first and its last. -/
theorem listed_between {t : Listed p} (h : c ∈ t.partitions) :
    (∃ first ∈ t.first?, first ≤ c) ∧ ∃ latest ∈ t.latest?, c ≤ latest := by
  have hne : t.partitions.toList ≠ [] := List.ne_nil_of_mem h
  have hfirst : t.first? = some (t.partitions.toList.head hne) := List.head?_eq_some_head hne
  have hlatest : t.latest? = some (t.partitions.toList.getLast hne) := List.getLast?_eq_some_getLast hne
  exact ⟨⟨_, hfirst, (OrderedSet.first?_eq_some hfirst).2 c h⟩,
    _, hlatest, (OrderedSet.last?_eq_some hlatest).2 c h⟩

theorem mem_cursor : c ∈ t.cursor.toList ↔ t.has c := by
  cases t with
  | listed t =>
    refine Cursor.mem_toList.trans (Iff.trans ?_ Listed.has_iff.symm)
    constructor
    · exact fun h => h.2.2
    · intro h
      exact ⟨(listed_between h).1, (listed_between h).2, h⟩
  | holed t =>
    obtain ⟨ends, holes⟩ := t
    cases ends with
    | none => simp [cursor, Holed.cursor, Holed.first?, Cursor.toList, has, Holed.has]
    | some ends =>
      refine Cursor.mem_toList.trans (Iff.trans ?_ Holed.has_iff.symm)
      simp [cursor, Holed.cursor, Holed.first?, Holed.latest?, Source.Has, and_assoc]
  | span t =>
    obtain ⟨ends⟩ := t
    have hc : c ∉ (∅ : CellSet p) := OrderedSet.not_mem_empty
    cases ends with
    | none => simp [cursor, Span.cursor, Span.first?, Cursor.toList, has, Span.has]
    | some ends =>
      refine Cursor.mem_toList.trans ?_
      simp [cursor, Span.cursor, Span.first?, Span.latest?, Source.Has, has, Span.has, hc]

theorem cursor_congr (h : ∀ c, t.has c = u.has c) : t.cursor.toList = u.cursor.toList := by
  apply Cursor.toList_congr
  intro c
  rw [mem_cursor, mem_cursor, h]

theorem within_congr (h : ∀ c, t.has c = u.has c) (lower upper : Cell p) :
    (t.cursor.within lower upper).toList = (u.cursor.within lower upper).toList := by
  apply Cursor.toList_congr
  intro c
  rw [Cursor.mem_within, Cursor.mem_within, mem_cursor, mem_cursor, h]

theorem listed_iff {s : CellSet p} : (listed ⟨s⟩).has c ↔ c ∈ s := Listed.has_iff

theorem span_iff {ends : Ends p} :
    (span ⟨some ends⟩).has c ↔ ends.first ≤ c ∧ c ≤ ends.latest := by
  simp [has, Span.has]

/-- The ends of a consistent timeline exist. -/
theorem has_ends {ends : Ends p} {holes : CellSet p} (h : (⟨some ends, holes⟩ : Holed p).Consistent) :
    (holed ⟨some ends, holes⟩).has ends.first ∧ (holed ⟨some ends, holes⟩).has ends.latest := by
  obtain ⟨first, latest⟩ := ends
  obtain ⟨hle, hin⟩ := Holed.consistent_iff.mp h
  have hfirst : first ∉ holes := fun hm => Std.lt_irrefl (hin first hm).1
  have hlatest : latest ∉ holes := fun hm => Std.lt_irrefl (hin latest hm).2
  constructor
  · exact Holed.has_iff.mpr ⟨⟨Int.le_refl _, hle⟩, hfirst⟩
  · exact Holed.has_iff.mpr ⟨⟨hle, Int.le_refl _⟩, hlatest⟩

theorem first?_eq_some (h : t.Consistent) (hc : t.first? = some c) :
    t.has c ∧ ∀ d, t.has d → c ≤ d := by
  cases t with
  | listed t =>
    obtain ⟨hmem, hleast⟩ := OrderedSet.first?_eq_some hc
    exact ⟨listed_iff.mpr hmem, fun d hd => hleast d (listed_iff.mp hd)⟩
  | holed t =>
    rcases t with ⟨_ | ends, holes⟩
    · cases hc
    · cases hc
      refine ⟨(has_ends h).1, ?_⟩
      intro d hd
      exact (Holed.has_iff.mp hd).1.1
  | span t =>
    rcases t with ⟨_ | ends⟩
    · cases hc
    · cases hc
      refine ⟨span_iff.mpr ⟨Int.le_refl _, h⟩, ?_⟩
      intro d hd
      exact (span_iff.mp hd).1

theorem latest?_eq_some (h : t.Consistent) (hc : t.latest? = some c) :
    t.has c ∧ ∀ d, t.has d → d ≤ c := by
  cases t with
  | listed t =>
    obtain ⟨hmem, hgreatest⟩ := OrderedSet.last?_eq_some hc
    exact ⟨listed_iff.mpr hmem, fun d hd => hgreatest d (listed_iff.mp hd)⟩
  | holed t =>
    rcases t with ⟨_ | ends, holes⟩
    · cases hc
    · cases hc
      refine ⟨(has_ends h).2, ?_⟩
      intro d hd
      exact (Holed.has_iff.mp hd).1.2
  | span t =>
    rcases t with ⟨_ | ends⟩
    · cases hc
    · cases hc
      refine ⟨span_iff.mpr ⟨h, Int.le_refl _⟩, ?_⟩
      intro d hd
      exact (span_iff.mp hd).2

theorem has_of_first?_none (h : t.first? = none) (c : Cell p) : t.has c = false := by
  cases t with
  | listed t =>
    have hl := List.head?_eq_none_iff.mp h
    simp [has, Listed.has, OrderedSet.mem_def, hl]
  | holed t =>
    rcases t with ⟨_ | ends, holes⟩
    · rfl
    · cases h
  | span t =>
    rcases t with ⟨_ | ends⟩
    · rfl
    · cases h

theorem latest?_eq_none_iff : t.latest? = none ↔ t.first? = none := by
  cases t with
  | listed t => simp [latest?, first?, Listed.latest?, Listed.first?, OrderedSet.last?, OrderedSet.first?]
  | holed t => simp [latest?, first?, Holed.latest?, Holed.first?]
  | span t => simp [latest?, first?, Span.latest?, Span.first?]

theorem first?_isSome_iff (h : t.Consistent) : t.first?.isSome ↔ ∃ c, t.has c := by
  cases hf : t.first? with
  | none => simp [has_of_first?_none hf]
  | some c => simpa using ⟨c, (first?_eq_some h hf).1⟩

section Congr
variable (ht : t.Consistent) (hu : u.Consistent) (h : ∀ c, t.has c = u.has c)
include ht hu h

theorem first?_none_congr : t.first? = none ↔ u.first? = none := by
  have hsome := first?_isSome_iff ht
  simp only [h, ← first?_isSome_iff hu] at hsome
  rw [← Option.not_isSome_iff_eq_none, ← Option.not_isSome_iff_eq_none, hsome]

theorem first?_congr : t.first? = u.first? := by
  cases hf : t.first? with
  | none => exact ((first?_none_congr ht hu h).mp hf).symm
  | some a =>
    cases hg : u.first? with
    | none =>
      rw [(first?_none_congr ht hu h).mpr hg] at hf
      cases hf
    | some b =>
      have ha := first?_eq_some ht hf
      simp only [h] at ha
      exact congrArg some (Cell.first_unique (P := fun d => u.has d) ha (first?_eq_some hu hg))

theorem latest?_congr : t.latest? = u.latest? := by
  have hnone := first?_none_congr ht hu h
  rw [← latest?_eq_none_iff, ← latest?_eq_none_iff] at hnone
  cases hf : t.latest? with
  | none => exact (hnone.mp hf).symm
  | some a =>
    cases hg : u.latest? with
    | none =>
      rw [hnone.mpr hg] at hf
      cases hf
    | some b =>
      have ha := latest?_eq_some ht hf
      simp only [h] at ha
      exact congrArg some (Cell.last_unique (P := fun d => u.has d) ha (latest?_eq_some hu hg))

end Congr
end Contents

namespace Timeline
variable {t u : Timeline} {q : Partition}

theorem has_partitionOf (t : Timeline) (c : Cell t.key.period) :
    t.has (t.partitionOf c) = t.contents.has c := by
  have hc : (t.partitionOf c).cellIn? t.key.period = some c := Partition.cellIn?_eq_some.mpr rfl
  rw [has, hc]
  rfl

theorem has_iff : t.has q ↔ ∃ c, q = t.partitionOf c ∧ t.contents.has c := by
  constructor
  · intro h
    rw [has] at h
    cases hc : q.cellIn? t.key.period with
    | none =>
      rw [hc] at h
      cases h
    | some c =>
      rw [hc] at h
      exact ⟨c, Partition.cellIn?_eq_some.mp hc, h⟩
  · rintro ⟨c, rfl, hc⟩
    rwa [has_partitionOf]

/-- The list of a timeline has exactly the partitions that exist. -/
theorem mem_toList : q ∈ t.toList ↔ t.has q := by
  rw [has_iff, toList, List.mem_map]
  constructor
  · rintro ⟨c, hc, rfl⟩
    exact ⟨c, rfl, Contents.mem_cursor.mp hc⟩
  · rintro ⟨c, rfl, hc⟩
    exact ⟨c, Contents.mem_cursor.mpr hc, rfl⟩

theorem partitionOf_lt {c d : Cell t.key.period} : t.partitionOf c < t.partitionOf d ↔ c < d :=
  Partition.mk_lt_mk

theorem partitionOf_le {c d : Cell t.key.period} : t.partitionOf c ≤ t.partitionOf d ↔ c ≤ d :=
  Partition.mk_le_mk

theorem toList_ascending (t : Timeline) : t.toList.Pairwise (· < ·) := by
  rw [toList, List.pairwise_map]
  exact t.contents.cursor.toList_ascending.imp partitionOf_lt.mpr

/-- Two timelines that no question tells apart. -/
structure SameViews (t u : Timeline) : Prop where
  has : ∀ q, t.has q = u.has q
  first? : t.first? = u.first?
  latest? : t.latest? = u.latest?
  isEmpty : t.isEmpty = u.isEmpty
  toList : t.toList = u.toList
  toListWithin : ∀ r, t.toListWithin r = u.toListWithin r

/-- Consistent timelines of one key in which the same partitions exist show the same. -/
theorem sameViews_of_has (hk : t.key = u.key) (ht : t.Consistent) (hu : u.Consistent)
    (h : ∀ q, t.has q = u.has q) : SameViews t u := by
  obtain ⟨key, a⟩ := t
  obtain ⟨_, b⟩ := u
  cases hk
  have hc : ∀ c, a.has c = b.has c := by
    intro c
    have hq := h (partitionOf ⟨key, a⟩ c)
    rw [has_partitionOf] at hq
    rw [hq]
    exact has_partitionOf ⟨key, b⟩ c
  have hfirst : a.first? = b.first? := Contents.first?_congr ht hu hc
  have hlatest : a.latest? = b.latest? := Contents.latest?_congr ht hu hc
  refine ⟨h, ?_, ?_, ?_, ?_, ?_⟩
  · exact congrArg (Option.map _) hfirst
  · exact congrArg (Option.map _) hlatest
  · exact congrArg Option.isNone hfirst
  · exact congrArg (List.map _) (Contents.cursor_congr hc)
  · intro r
    simp only [toListWithin, cursorWithin, cellOf]
    cases r.lowerEnd.cellIn? key.period with
    | none => rfl
    | some lower =>
      cases r.upperEnd.cellIn? key.period with
      | none => rfl
      | some upper =>
        have hw := Contents.within_congr hc lower upper
        exact congrArg (fun l => Except.ok (l.map (Partition.mk key.period))) hw

end Timeline
end PartitionLedger

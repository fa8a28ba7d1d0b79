import PartitionLedger.Proofs.StoredTimeline

/-!
What a change answers is true of what it leaves, in whatever state the timeline was: it says that it
changed the timeline exactly if another one is left, and where it is refused the same one is left.

Additions only let a timeline grow, so no addition undoes what another has changed, and many of them
together can answer whether any of them was a change.
-/
namespace PartitionLedger

/-- The ends, if there are any, lie within the others, whichever way round they are. -/
def Ends.Within {p : Period} : Option (Ends p) → Option (Ends p) → Prop
  | none, _ => True
  | some _, none => False
  | some a, some b => b.first ≤ a.first ∧ a.latest ≤ b.latest

namespace Ends
variable {p : Period} {a b c : Option (Ends p)}

theorem within_refl (a : Option (Ends p)) : Within a a := by
  cases a with
  | none => trivial
  | some a => exact ⟨Int.le_refl _, Int.le_refl _⟩

theorem Within.trans (h : Within a b) (h' : Within b c) : Within a c := by
  cases a with
  | none => trivial
  | some a =>
    cases b with
    | none => exact h.elim
    | some b =>
      cases c with
      | none => exact h'.elim
      | some c => exact ⟨Std.le_trans h'.1 h.1, Std.le_trans h.2 h'.2⟩

theorem Within.antisymm (h : Within a b) (h' : Within b a) : a = b := by
  cases a with
  | none =>
    cases b with
    | none => rfl
    | some b => exact h'.elim
  | some a =>
    cases b with
    | none => exact h.elim
    | some b =>
      obtain ⟨first, latest⟩ := a
      obtain ⟨first', latest'⟩ := b
      have hfirst : first = first' := Std.le_antisymm h'.1 h.1
      have hlatest : latest = latest' := Std.le_antisymm h.2 h'.2
      rw [hfirst, hlatest]

end Ends

namespace Contents
variable {p : Period} {t u v : Contents p} {c : Cell p}

/-- What a timeline can become by additions. Ends that move out leave the holes open: new ones come between
the old end and the new one, and those that lie outside may come to lie inside. -/
def Grows : Contents p → Contents p → Prop
  | listed t, listed u => ∀ c ∈ t.partitions, c ∈ u.partitions
  | holed t, holed u => Ends.Within t.ends u.ends ∧ (t.ends = u.ends → ∀ c ∈ u.holes, c ∈ t.holes)
  | span t, span u => Ends.Within t.ends u.ends
  | _, _ => False

theorem grows_refl (t : Contents p) : Grows t t := by
  cases t with
  | listed t => exact fun _ => id
  | holed t => exact ⟨Ends.within_refl t.ends, fun _ _ => id⟩
  | span t => exact Ends.within_refl t.ends

theorem Grows.trans (h : Grows t u) (h' : Grows u v) : Grows t v := by
  cases t with
  | listed t =>
    cases u with
    | listed u =>
      cases v with
      | listed v => exact fun c hc => h' c (h c hc)
      | holed | span => exact h'.elim
    | holed | span => exact h.elim
  | holed t =>
    cases u with
    | holed u =>
      cases v with
      | holed v =>
        refine ⟨h.1.trans h'.1, ?_⟩
        -- ends that are the same after both steps were the same in between
        intro hends c hc
        have hmid : t.ends = u.ends := h.1.antisymm (hends ▸ h'.1)
        exact h.2 hmid c (h'.2 (hmid.symm.trans hends) c hc)
      | listed | span => exact h'.elim
    | listed | span => exact h.elim
  | span t =>
    cases u with
    | span u =>
      cases v with
      | span v => exact Ends.Within.trans h h'
      | listed | holed => exact h'.elim
    | listed | holed => exact h.elim

theorem Grows.antisymm (h : Grows t u) (h' : Grows u t) : t = u := by
  cases t with
  | listed t =>
    cases u with
    | listed u =>
      have hsame : t.partitions = u.partitions := OrderedSet.ext_mem fun c => ⟨h c, h' c⟩
      exact congrArg (fun s => listed ⟨s⟩) hsame
    | holed | span => exact h.elim
  | holed t =>
    cases u with
    | holed u =>
      have hends : t.ends = u.ends := h.1.antisymm h'.1
      have hholes : t.holes = u.holes := OrderedSet.ext_mem fun c => ⟨h'.2 hends.symm c, h.2 hends c⟩
      cases t
      cases u
      cases hends
      cases hholes
      rfl
    | listed | span => exact h.elim
  | span t =>
    cases u with
    | span u => exact congrArg (fun ends => span ⟨ends⟩) (Ends.Within.antisymm h h')
    | listed | holed => exact h.elim

end Contents

namespace Listed
variable {p : Period} {t : Listed p} {c : Cell p}

end Listed

namespace Span
variable {p : Period} {t : Span p} {c : Cell p}

theorem within_add (t : Span p) (c : Cell p) : Ends.Within t.ends (t.add c).1.ends := by
  rcases t with ⟨_ | ⟨first, latest⟩⟩
  · trivial
  · simp only [add]
    split
    · rename_i hlow
      exact ⟨Std.le_of_lt hlow, Int.le_refl _⟩
    · split
      · rename_i hhigh
        exact ⟨Int.le_refl _, Std.le_of_lt hhigh⟩
      · exact Ends.within_refl _

end Span

namespace Holed
variable {p : Period} {t : Holed p} {c : Cell p}

/-- The four ways an addition changes a timeline with holes, and that it does not. -/
theorem add_cases (t : Holed p) (c : Cell p) :
    (t.ends = none ∧ t.add c = (⟨some ⟨c, c⟩, ∅⟩, true)) ∨
    (∃ first latest holes, t.ends = some ⟨first, latest⟩ ∧ c < first ∧
      t.add c = (⟨some ⟨c, latest⟩, holes⟩, true)) ∨
    (∃ first latest holes, t.ends = some ⟨first, latest⟩ ∧ latest < c ∧
      t.add c = (⟨some ⟨first, c⟩, holes⟩, true)) ∨
    (c ∈ t.holes ∧ t.add c = (⟨t.ends, t.holes.erase c⟩, true)) ∨
    t.add c = (t, false) := by
  rcases t with ⟨_ | ⟨first, latest⟩, holes⟩
  · exact Or.inl ⟨rfl, rfl⟩
  · simp only [add]
    split
    · rename_i hlow
      exact Or.inr (Or.inl ⟨first, latest, _, rfl, hlow, rfl⟩)
    · split
      · rename_i hhigh
        exact Or.inr (Or.inr (Or.inl ⟨first, latest, _, rfl, hhigh, rfl⟩))
      · split
        · rename_i hole
          exact Or.inr (Or.inr (Or.inr (Or.inl ⟨hole, rfl⟩)))
        · exact Or.inr (Or.inr (Or.inr (Or.inr rfl)))

theorem grows_add (t : Holed p) (c : Cell p) : (Contents.holed t).Grows (.holed (t.add c).1) := by
  obtain ⟨hends, hadd⟩ | ⟨first, latest, holes, hends, hlow, hadd⟩ |
    ⟨first, latest, holes, hends, hhigh, hadd⟩ | ⟨hole, hadd⟩ | hadd := t.add_cases c
  · rw [hadd]
    exact ⟨hends ▸ trivial, fun he => nomatch hends.symm.trans he⟩
  · rw [hadd]
    refine ⟨hends ▸ ⟨Std.le_of_lt hlow, Int.le_refl _⟩, ?_⟩
    intro he
    cases hends.symm.trans he
    exact absurd hlow Std.lt_irrefl
  · rw [hadd]
    refine ⟨hends ▸ ⟨Int.le_refl _, Std.le_of_lt hhigh⟩, ?_⟩
    intro he
    cases hends.symm.trans he
    exact absurd hhigh Std.lt_irrefl
  · rw [hadd]
    exact ⟨Ends.within_refl _, fun _ d hd => (OrderedSet.mem_erase.mp hd).1⟩
  · rw [hadd]
    exact Contents.grows_refl _

end Holed

namespace Contents
variable {p : Period} {t u : Contents p} {c : Cell p} {changed : Bool}

theorem grows_add (t : Contents p) (c : Cell p) : t.Grows (t.add c).1 := by
  cases t with
  | listed t => exact fun d hd => Listed.mem_add.mpr (Or.inl hd)
  | holed t => exact t.grows_add c
  | span t => exact t.within_add c

end Contents

namespace Timeline
variable {t u : Timeline} {q : Partition} {qs : List Partition}

/-- What a timeline can become by additions, which leave its key as it is. -/
def Grows (t u : Timeline) : Prop := ∃ contents, u = { t with contents } ∧ t.contents.Grows contents

theorem grows_refl (t : Timeline) : Grows t t := ⟨t.contents, rfl, t.contents.grows_refl⟩

theorem Grows.trans {v : Timeline} (h : Grows t u) (h' : Grows u v) : Grows t v := by
  obtain ⟨a, rfl, ha⟩ := h
  obtain ⟨b, rfl, hb⟩ := h'
  exact ⟨b, rfl, ha.trans hb⟩

theorem Grows.antisymm (h : Grows t u) (h' : Grows u t) : t = u := by
  obtain ⟨a, rfl, ha⟩ := h
  obtain ⟨b, hb, hb'⟩ := h'
  have hsame : b = t.contents := by
    obtain ⟨key, held⟩ := t
    cases hb
    rfl
  subst hsame
  rw [← ha.antisymm hb']

theorem grows_add (t : Timeline) (q : Partition) : Grows t (t.add q).1 := by
  rcases t.add_cases q with hadd | ⟨c, -, hadd⟩
  · rw [hadd]
    exact t.grows_refl
  · rw [hadd]
    exact ⟨_, rfl, t.contents.grows_add c⟩

end Timeline
end PartitionLedger

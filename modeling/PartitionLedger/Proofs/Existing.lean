import PartitionLedger.Proofs.Outcome
import PartitionLedger.Proofs.Views
import PartitionLedger.Timeline.Edit

/-!
Which partitions exist after a change, and what no change touches.

Timelines that can have gaps are as good as sets of partitions: what a change answers and leaves is
determined by which partitions existed before it.
-/
namespace PartitionLedger

namespace Listed
variable {p : Period}

theorem add_spec (t : Listed p) (c : Cell p) :
    (t.add c).2 = !t.has c ∧ ∀ d, (t.add c).1.has d ↔ t.has d ∨ d = c := by
  refine ⟨by simp [add_changed, has], ?_⟩
  intro d
  simp only [has_iff, mem_add]

theorem drop_spec (t : Listed p) (c : Cell p) :
    (t.drop c).2 = t.has c ∧ ∀ d, (t.drop c).1.has d ↔ t.has d ∧ d ≠ c := by
  by_cases h : c ∈ t.partitions
  · simp [drop, has, h, OrderedSet.mem_erase]
  · simp only [drop, has, if_neg h, decide_eq_false h, true_and, decide_eq_true_eq]
    intro d
    constructor
    · intro hd
      exact ⟨hd, fun he => h (he ▸ hd)⟩
    · exact And.left

theorem add_unchanged {t : Listed p} {c : Cell p} (h : (t.add c).2 = false) : (t.add c).1 = t := by
  rw [add_changed, decide_eq_false_iff_not, Decidable.not_not] at h
  rw [add_of_mem h]

theorem drop_unchanged {t : Listed p} {c : Cell p} (h : (t.drop c).2 = false) : (t.drop c).1 = t := by
  simp only [drop] at h ⊢
  split at h
  · cases h
  · rename_i hc
    rw [if_neg hc]

end Listed

namespace Span
variable {p : Period} {t : Span p} {c : Cell p}

theorem consistent_add (h : t.Consistent) : (t.add c).1.Consistent := by
  rcases t with ⟨_ | ⟨first, latest⟩⟩
  · exact Int.le_refl _
  · have hle : first ≤ latest := h
    simp only [add]
    split
    · rename_i hlow
      exact Std.le_trans (Std.le_of_lt hlow) hle
    · split
      · rename_i hhigh
        exact Std.le_trans hle (Std.le_of_lt hhigh)
      · exact h

theorem add_unchanged (h : (t.add c).2 = false) : (t.add c).1 = t := by
  rcases t with ⟨_ | ⟨first, latest⟩⟩
  · cases h
  · simp only [add] at h ⊢
    split at h
    · cases h
    · rename_i hlow
      split at h
      · cases h
      · rename_i hhigh
        rw [if_neg hlow, if_neg hhigh]

end Span

namespace Holed
variable {p : Period} {t : Holed p} {c : Cell p}

theorem add_unchanged (h : (t.add c).2 = false) : (t.add c).1 = t := by
  rcases t with ⟨_ | ⟨first, latest⟩, holes⟩
  · cases h
  · simp only [add] at h ⊢
    split at h
    · cases h
    · rename_i hlow
      split at h
      · cases h
      · rename_i hhigh
        split at h
        · cases h
        · rename_i hole
          rw [if_neg hlow, if_neg hhigh, if_neg hole]

theorem drop_unchanged (h : (t.drop c).2 = false) : (t.drop c).1 = t := by
  rcases t with ⟨_ | ⟨first, latest⟩, holes⟩
  · rfl
  · simp only [drop] at h ⊢
    split at h
    · rename_i hout
      rw [if_pos hout]
    · split at h
      · cases h
      · split at h
        · cases h
        · split at h
          · cases h
          · cases h

end Holed

namespace Contents
variable {p : Period} {t u : Contents p} {c : Cell p} {flag : Bool}

theorem strategy_add (t : Contents p) (c : Cell p) : (t.add c).1.strategy = t.strategy := by
  cases t <;> rfl

theorem strategy_drop? (h : t.drop? c = some (u, flag)) : u.strategy = t.strategy := by
  cases t with
  | listed t =>
    cases h
    rfl
  | holed t =>
    cases h
    rfl
  | span t => cases h

theorem consistent_add (h : t.Consistent) : (t.add c).1.Consistent := by
  cases t with
  | listed t => trivial
  | holed t => exact (Holed.add_spec h c).2.1
  | span t => exact Span.consistent_add h

theorem consistent_drop? (h : t.Consistent) (hd : t.drop? c = some (u, flag)) : u.Consistent := by
  cases t with
  | listed t =>
    cases hd
    trivial
  | holed t =>
    cases hd
    exact (Holed.drop_spec h c).2.1
  | span t => cases hd

theorem add_unchanged (h : (t.add c).2 = false) : (t.add c).1 = t := by
  cases t with
  | listed t => exact congrArg listed (Listed.add_unchanged h)
  | holed t => exact congrArg holed (Holed.add_unchanged h)
  | span t => exact congrArg span (Span.add_unchanged h)

theorem drop?_unchanged (h : t.drop? c = some (u, false)) : u = t := by
  cases t with
  | listed t =>
    obtain ⟨hu, hflag⟩ := Prod.mk.inj (Option.some.inj h)
    exact hu ▸ congrArg listed (Listed.drop_unchanged hflag)
  | holed t =>
    obtain ⟨hu, hflag⟩ := Prod.mk.inj (Option.some.inj h)
    exact hu ▸ congrArg holed (Holed.drop_unchanged hflag)
  | span t => cases h

section Gaps
variable (hs : t.strategy ≠ .continuous) (h : t.Consistent)
include hs h

theorem add_spec (c : Cell p) :
    (t.add c).2 = !t.has c ∧ ∀ d, (t.add c).1.has d ↔ t.has d ∨ d = c := by
  cases t with
  | listed t => exact t.add_spec c
  | holed t =>
    obtain ⟨hflag, -, hhas⟩ := Holed.add_spec h c
    exact ⟨hflag, hhas⟩
  | span t => exact absurd rfl hs

theorem drop?_spec (c : Cell p) :
    ∃ u, t.drop? c = some (u, t.has c) ∧ ∀ d, u.has d ↔ t.has d ∧ d ≠ c := by
  cases t with
  | listed t =>
    obtain ⟨hflag, hhas⟩ := t.drop_spec c
    exact ⟨listed (t.drop c).1, congrArg (fun b => some (_, b)) hflag, hhas⟩
  | holed t =>
    obtain ⟨hflag, -, hhas⟩ := Holed.drop_spec h c
    exact ⟨holed (t.drop c).1, congrArg (fun b => some (_, b)) hflag, hhas⟩
  | span t => exact absurd rfl hs

end Gaps
end Contents

namespace Timeline
variable {t : Timeline} {q r : Partition} {qs : List Partition}

/-- An edit that leaves a timeline as good as it was, and says so where it leaves it as it was. -/
structure Sound (edit : Timeline → Timeline × Except TimelineError Bool) : Prop where
  key : ∀ t, (edit t).1.key = t.key
  strategy : ∀ t, (edit t).1.strategy = t.strategy
  consistent : ∀ t, t.Consistent → (edit t).1.Consistent
  unchanged : ∀ t, (edit t).2 = .ok false → (edit t).1 = t

theorem has_empty (key : Key) (strategy : Strategy) (q : Partition) :
    (empty key strategy).has q = false := by
  rw [Bool.eq_false_iff]
  intro h
  obtain ⟨c, -, hc⟩ := has_iff.mp h
  cases strategy <;> cases hc

theorem consistent_empty (key : Key) (strategy : Strategy) : (empty key strategy).Consistent := by
  cases strategy with
  | storeAll => trivial
  | endsAndHoles => exact Holed.consistent_empty
  | continuous => trivial

theorem add_of_ne (h : q.period ≠ t.key.period) : t.add q = (t, .error (.invalidPartition t.key q)) := by
  simp only [add, cellOf_of_ne h]

theorem drop_of_ne (h : q.period ≠ t.key.period) :
    t.drop q = (t, .error (.invalidPartition t.key q)) := by
  simp only [drop, cellOf_of_ne h]

/-- A partition of the timeline's period is one of its cells. -/
theorem exists_cell (h : q.period = t.key.period) : ∃ c, q = t.partitionOf c := by
  obtain ⟨period, cell⟩ := q
  cases h
  exact ⟨cell, rfl⟩

theorem partitionOf_inj {c d : Cell t.key.period} : t.partitionOf c = t.partitionOf d ↔ c = d := by
  simp [partitionOf]

theorem drop_partitionOf (t : Timeline) (c : Cell t.key.period) :
    t.drop (t.partitionOf c) = match t.contents.drop? c with
      | some (contents, changed) => ({ t with contents }, .ok changed)
      | none => (t, .error (.dropUnsupported t.key)) := by
  cases hd : t.contents.drop? c <;> simp [drop, cellOf_partitionOf, hd]

/-- An addition is refused, or adds a cell of the timeline's period. -/
theorem add_cases (t : Timeline) (q : Partition) :
    t.add q = (t, .error (.invalidPartition t.key q)) ∨ ∃ c, q = t.partitionOf c ∧
      t.add q = ({ t with contents := (t.contents.add c).1 }, .ok (t.contents.add c).2) := by
  by_cases hq : q.period = t.key.period
  · obtain ⟨c, rfl⟩ := exists_cell hq
    exact Or.inr ⟨c, rfl, t.add_partitionOf c⟩
  · exact Or.inl (add_of_ne hq)

theorem exists_add_eq_ok (h : q.period = t.key.period) : ∃ flag, t.add q = ((t.add q).1, .ok flag) := by
  obtain ⟨c, rfl⟩ := exists_cell h
  exact ⟨(t.contents.add c).2, by rw [add_partitionOf]⟩

/-- A drop is refused, or drops a cell of the timeline's period. -/
theorem drop_cases (t : Timeline) (q : Partition) :
    (∃ e, t.drop q = (t, .error e)) ∨ ∃ c contents flag, q = t.partitionOf c ∧
      t.contents.drop? c = some (contents, flag) ∧ t.drop q = ({ t with contents }, .ok flag) := by
  by_cases hq : q.period = t.key.period
  · obtain ⟨c, rfl⟩ := exists_cell hq
    rw [drop_partitionOf]
    cases hd : t.contents.drop? c with
    | none => exact Or.inl ⟨_, rfl⟩
    | some result => exact Or.inr ⟨c, result.1, result.2, rfl, hd, rfl⟩
  · exact Or.inl ⟨_, drop_of_ne hq⟩

theorem sound_add (q : Partition) : Sound (·.add q) := by
  refine ⟨(·.key_add q), ?_, ?_, ?_⟩
  · intro t
    rcases t.add_cases q with hadd | ⟨c, -, hadd⟩
    · rw [hadd]
    · rw [hadd]
      exact t.contents.strategy_add c
  · intro t h
    rcases t.add_cases q with hadd | ⟨c, -, hadd⟩
    · rwa [hadd]
    · rw [hadd]
      exact Contents.consistent_add h
  · intro t h
    rcases t.add_cases q with hadd | ⟨c, -, hadd⟩
    · rw [hadd]
    · rw [hadd] at h ⊢
      exact congrArg (Timeline.mk t.key) (Contents.add_unchanged (Except.ok.inj h))

theorem sound_drop (q : Partition) : Sound (·.drop q) := by
  refine ⟨(·.key_drop q), ?_, ?_, ?_⟩
  · intro t
    rcases t.drop_cases q with ⟨e, hdrop⟩ | ⟨c, contents, flag, -, hd, hdrop⟩
    · rw [hdrop]
    · rw [hdrop]
      exact Contents.strategy_drop? hd
  · intro t h
    rcases t.drop_cases q with ⟨e, hdrop⟩ | ⟨c, contents, flag, -, hd, hdrop⟩
    · rwa [hdrop]
    · rw [hdrop]
      exact Contents.consistent_drop? h hd
  · intro t h
    rcases t.drop_cases q with ⟨e, hdrop⟩ | ⟨c, contents, flag, -, hd, hdrop⟩
    · rw [hdrop]
    · rw [hdrop] at h ⊢
      cases Except.ok.inj h
      exact congrArg (Timeline.mk t.key) (Contents.drop?_unchanged hd)

theorem addAll_cons_ok {u : Timeline} {flag : Bool} (h : t.add q = (u, .ok flag)) :
    t.addAll (q :: qs) = ((u.addAll qs).1, (u.addAll qs).2.map (flag || ·)) := by
  simp only [addAll, h]

theorem addAll_cons_error {u : Timeline} {e : TimelineError} (h : t.add q = (u, .error e)) :
    t.addAll (q :: qs) = (u, .error e) := by
  simp only [addAll, h]

/-- What adding one partition preserves, adding many preserves. -/
theorem addAll_induction {P : Timeline → Prop} (hstep : ∀ t q, P t → P (t.add q).1) (h : P t) :
    P (t.addAll qs).1 := by
  induction qs generalizing t with
  | nil => exact h
  | cons q rest ih =>
    have hu := hstep t q h
    cases ha : t.add q with
    | mk u outcome =>
      rw [ha] at hu
      cases outcome with
      | error e => rwa [addAll_cons_error ha]
      | ok flag =>
        rw [addAll_cons_ok ha]
        exact ih hu

theorem addAll_unchanged (h : (t.addAll qs).2 = .ok false) : (t.addAll qs).1 = t := by
  induction qs with
  | nil => rfl
  | cons q rest ih =>
    cases ha : t.add q with
    | mk u outcome =>
      cases outcome with
      | error e =>
        rw [addAll_cons_error ha] at h
        cases h
      | ok flag =>
        rw [addAll_cons_ok ha] at h ⊢
        obtain ⟨b, hb, hor⟩ := map_eq_ok.mp h
        obtain ⟨rfl, rfl⟩ := Bool.or_eq_false_iff.mp hor
        have hu : u = t := by
          have := (sound_add q).unchanged t (by rw [ha])
          rwa [ha] at this
        subst hu
        exact ih hb

theorem sound_addAll (qs : List Partition) : Sound (·.addAll qs) := by
  refine ⟨(·.key_addAll qs), ?_, ?_, fun _ => addAll_unchanged⟩
  · intro t
    apply addAll_induction (P := fun u => u.strategy = t.strategy) _ rfl
    intro u q hu
    rw [(sound_add q).strategy, hu]
  · intro t h
    apply addAll_induction (P := Consistent) _ h
    intro u q hu
    exact (sound_add q).consistent u hu

theorem sound_addRange (range : Range) : Sound (·.addRange range) := by
  simp only [addRange_eq_addAll]
  exact sound_addAll range.toList

/-- A timeline that can have gaps and does not contradict itself. -/
structure Explicit (t : Timeline) : Prop where
  gaps : t.strategy ≠ .continuous
  consistent : t.Consistent

theorem Sound.explicit {edit : Timeline → Timeline × Except TimelineError Bool} (hs : Sound edit)
    (h : t.Explicit) : (edit t).1.Explicit :=
  ⟨hs.strategy t ▸ h.gaps, hs.consistent t h.consistent⟩

namespace Explicit
variable (h : t.Explicit)
include h

theorem add (hq : q.period = t.key.period) :
    (t.add q).2 = .ok (!t.has q) ∧ ∀ r, (t.add q).1.has r ↔ t.has r ∨ r = q := by
  obtain ⟨c, rfl⟩ := exists_cell hq
  obtain ⟨hflag, hhas⟩ := Contents.add_spec h.gaps h.consistent c
  rw [add_partitionOf]
  refine ⟨by rw [has_partitionOf, hflag], ?_⟩
  intro r
  rw [has_iff, has_iff]
  constructor
  · rintro ⟨d, rfl, hd⟩
    rcases (hhas d).mp hd with hd | hd
    · exact Or.inl ⟨d, rfl, hd⟩
    · exact Or.inr (congrArg t.partitionOf hd)
  · rintro (⟨d, rfl, hd⟩ | rfl)
    · exact ⟨d, rfl, (hhas d).mpr (Or.inl hd)⟩
    · exact ⟨c, rfl, (hhas c).mpr (Or.inr rfl)⟩

theorem drop (hq : q.period = t.key.period) :
    (t.drop q).2 = .ok (t.has q) ∧ ∀ r, (t.drop q).1.has r ↔ t.has r ∧ r ≠ q := by
  obtain ⟨c, rfl⟩ := exists_cell hq
  obtain ⟨u, hu, hhas⟩ := Contents.drop?_spec h.gaps h.consistent c
  rw [drop_partitionOf, hu]
  refine ⟨by rw [has_partitionOf], ?_⟩
  intro r
  rw [has_iff, has_iff]
  constructor
  · rintro ⟨d, rfl, hd⟩
    obtain ⟨hd, hne⟩ := (hhas d).mp hd
    exact ⟨⟨d, rfl, hd⟩, fun he => hne (partitionOf_inj.mp he)⟩
  · rintro ⟨⟨d, rfl, hd⟩, hne⟩
    exact ⟨d, rfl, (hhas d).mpr ⟨hd, fun he => hne (congrArg t.partitionOf he)⟩⟩

/-- Partitions of the timeline's period are all added, and the answer is whether one of them was
missing. -/
theorem addAll (hqs : ∀ q ∈ qs, q.period = t.key.period) :
    (t.addAll qs).2 = .ok (qs.any (!t.has ·)) ∧ ∀ r, (t.addAll qs).1.has r ↔ t.has r ∨ r ∈ qs := by
  induction qs generalizing t with
  | nil =>
    refine ⟨rfl, ?_⟩
    intro r
    simp [Timeline.addAll]
  | cons q rest ih =>
    have hq := hqs q List.mem_cons_self
    obtain ⟨hflag, hhas⟩ := h.add hq
    have hadd : t.add q = ((t.add q).1, .ok (!t.has q)) := by rw [← hflag]
    have hrest : ∀ r ∈ rest, r.period = (t.add q).1.key.period := by
      intro r hr
      rw [key_add]
      exact hqs r (List.mem_cons_of_mem q hr)
    obtain ⟨hflags, hall⟩ := ih ((sound_add q).explicit h) hrest
    rw [addAll_cons_ok hadd]
    constructor
    · have hany : (!t.has q || rest.any (!(t.add q).1.has ·)) = (q :: rest).any (!t.has ·) := by
        rw [List.any_cons]
        cases hc : t.has q with
        | false => rfl
        | true =>
          have hsame : ∀ r, (t.add q).1.has r = t.has r := by
            intro r
            rw [Bool.eq_iff_iff, hhas]
            constructor
            · rintro (hr | rfl)
              · exact hr
              · exact hc
            · exact Or.inl
          simp only [hsame]
      rw [hflags, ← hany]
      rfl
    · intro r
      rw [hall, hhas, List.mem_cons, or_assoc]

end Explicit

theorem period_of_add {flag : Bool} (h : (t.add q).2 = .ok flag) : q.period = t.key.period := by
  by_cases hq : q.period = t.key.period
  · exact hq
  · rw [add_of_ne hq] at h
    cases h

theorem period_of_drop {flag : Bool} (h : (t.drop q).2 = .ok flag) : q.period = t.key.period := by
  by_cases hq : q.period = t.key.period
  · exact hq
  · rw [drop_of_ne hq] at h
    cases h

/-- Adding many partitions succeeds only if all of them are of the timeline's period. -/
theorem period_of_addAll {flag : Bool} (h : (t.addAll qs).2 = .ok flag) :
    ∀ q ∈ qs, q.period = t.key.period := by
  induction qs generalizing t flag with
  | nil =>
    intro q hq
    cases hq
  | cons q rest ih =>
    by_cases hq : q.period = t.key.period
    · obtain ⟨c, rfl⟩ := exists_cell hq
      rw [addAll_cons_ok (t.add_partitionOf c)] at h
      intro r hr
      rcases List.mem_cons.mp hr with rfl | hr
      · rfl
      · obtain ⟨b, hb, -⟩ := map_eq_ok.mp h
        exact ih hb r hr
    · rw [addAll_cons_error (add_of_ne hq)] at h
      cases h

end Timeline
end PartitionLedger

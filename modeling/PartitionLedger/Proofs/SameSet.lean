import PartitionLedger.Proofs.Existing
import PartitionLedger.Proofs.StoredTimeline

/-!
Keeping the missing partitions is as good as keeping the existing ones: no sequence of commands tells
a consistent timeline with holes from a list of the same partitions.
-/
namespace PartitionLedger

/-- What can be asked of one timeline to change it. -/
inductive Command where
  | add (q : Partition)
  | addAll (qs : List Partition)
  | addRange (r : Range)
  | drop (q : Partition)
  /-- Loads what the timeline itself is stored as. -/
  | reload
deriving DecidableEq

namespace Timeline

def obey (t : Timeline) : Command → Timeline × Except TimelineError Bool
  | .add q => t.add q
  | .addAll qs => t.addAll qs
  | .addRange r => t.addRange r
  | .drop q => t.drop q
  | .reload => t.load t.encode

/-- The timeline after a sequence of commands, and the answers it gave. -/
def run (t : Timeline) : List Command → Timeline × List (Except TimelineError Bool)
  | [] => (t, [])
  | command :: rest =>
    let (t, answer) := t.obey command
    let (t, answers) := t.run rest
    (t, answer :: answers)

/-- Two timelines of one key that can have gaps, in which the same partitions exist. -/
structure SameSet (t u : Timeline) : Prop where
  key : t.key = u.key
  left : t.Explicit
  right : u.Explicit
  has : ∀ q, t.has q = u.has q

namespace SameSet
variable {t u : Timeline} (h : SameSet t u)
include h

theorem period_iff {q : Partition} : q.period = t.key.period ↔ q.period = u.key.period := by
  rw [h.key]

/-- A sound edit whose result is determined by the partitions that exist keeps two timelines the same. -/
theorem of_sound {edit : Timeline → Timeline × Except TimelineError Bool} (hs : Sound edit)
    (hhas : ∀ q, (edit t).1.has q ↔ (edit u).1.has q) : SameSet (edit t).1 (edit u).1 := by
  refine ⟨?_, hs.explicit h.left, hs.explicit h.right, ?_⟩
  · rw [hs.key, hs.key, h.key]
  · intro q
    rw [Bool.eq_iff_iff]
    exact hhas q

theorem add (q : Partition) :
    (t.add q).2 = (u.add q).2 ∧ SameSet (t.add q).1 (u.add q).1 := by
  by_cases hq : q.period = t.key.period
  · obtain ⟨ht, htHas⟩ := h.left.add hq
    obtain ⟨hu, huHas⟩ := h.right.add (h.period_iff.mp hq)
    refine ⟨by rw [ht, hu, h.has], h.of_sound (sound_add q) ?_⟩
    intro r
    rw [htHas, huHas, h.has]
  · rw [add_of_ne hq, add_of_ne (fun hu => hq (h.period_iff.mpr hu)), h.key]
    exact ⟨rfl, h⟩

theorem drop (q : Partition) :
    (t.drop q).2 = (u.drop q).2 ∧ SameSet (t.drop q).1 (u.drop q).1 := by
  by_cases hq : q.period = t.key.period
  · obtain ⟨ht, htHas⟩ := h.left.drop hq
    obtain ⟨hu, huHas⟩ := h.right.drop (h.period_iff.mp hq)
    refine ⟨by rw [ht, hu, h.has], h.of_sound (sound_drop q) ?_⟩
    intro r
    rw [htHas, huHas, h.has]
  · rw [drop_of_ne hq, drop_of_ne (fun hu => hq (h.period_iff.mpr hu)), h.key]
    exact ⟨rfl, h⟩

/-- Also if one of the partitions is refused, after some have been added. -/
theorem addAll (qs : List Partition) :
    (t.addAll qs).2 = (u.addAll qs).2 ∧ SameSet (t.addAll qs).1 (u.addAll qs).1 := by
  induction qs generalizing t u with
  | nil => exact ⟨rfl, h⟩
  | cons q rest ih =>
    obtain ⟨hanswer, hnext⟩ := h.add q
    cases ht : t.add q with
    | mk t' answer =>
      have hu : u.add q = ((u.add q).1, answer) := by
        rw [ht] at hanswer
        exact Prod.ext rfl hanswer.symm
      rw [ht] at hnext
      cases answer with
      | error e =>
        rw [addAll_cons_error ht, addAll_cons_error hu]
        exact ⟨rfl, hnext⟩
      | ok flag =>
        rw [addAll_cons_ok ht, addAll_cons_ok hu]
        obtain ⟨hrest, hsame⟩ := ih hnext
        exact ⟨by rw [hrest], hsame⟩

theorem reload :
    (t.load t.encode).2 = (u.load u.encode).2 ∧
      SameSet (t.load t.encode).1 (u.load u.encode).1 := by
  have ht : decide t.Consistent = true := decide_eq_true h.left.consistent
  have hu : decide u.Consistent = true := decide_eq_true h.right.consistent
  rw [load_encode, load_encode, ht, hu]
  exact ⟨rfl, h⟩

theorem obey (command : Command) :
    (t.obey command).2 = (u.obey command).2 ∧
      SameSet (t.obey command).1 (u.obey command).1 := by
  cases command with
  | add q => exact h.add q
  | addAll qs => exact h.addAll qs
  | addRange r =>
    simp only [Timeline.obey, addRange_eq_addAll]
    exact h.addAll r.toList
  | drop q => exact h.drop q
  | reload => exact h.reload

theorem run (commands : List Command) :
    (t.run commands).2 = (u.run commands).2 ∧
      SameSet (t.run commands).1 (u.run commands).1 := by
  induction commands generalizing t u with
  | nil => exact ⟨rfl, h⟩
  | cons command rest ih =>
    obtain ⟨hanswer, hnext⟩ := h.obey command
    obtain ⟨hanswers, hsame⟩ := ih hnext
    simp only [Timeline.run]
    exact ⟨by rw [hanswer, hanswers], hsame⟩

theorem sameViews : SameViews t u :=
  sameViews_of_has h.key h.left.consistent h.right.consistent h.has

end SameSet

/-- A consistent timeline with holes and a list of the same partitions answer every sequence of
commands alike, and show the same after it. -/
theorem run_listed_eq_holed {t u : Timeline} (hlisted : t.strategy = .storeAll)
    (hholed : u.strategy = .endsAndHoles) (hkey : t.key = u.key) (ht : t.Consistent)
    (hu : u.Consistent) (hhas : ∀ q, t.has q = u.has q) (commands : List Command) :
    (t.run commands).2 = (u.run commands).2 ∧
      SameViews (t.run commands).1 (u.run commands).1 := by
  have hleft : t.Explicit := ⟨by simp [hlisted], ht⟩
  have hright : u.Explicit := ⟨by simp [hholed], hu⟩
  have hsame : SameSet t u := ⟨hkey, hleft, hright, hhas⟩
  obtain ⟨hanswers, hlast⟩ := hsame.run commands
  exact ⟨hanswers, hlast.sameViews⟩

/-- Two days with a gap between them, of which the first is dropped and the timeline loaded again. -/
theorem run_listed_eq_holed_of_empty :
    let t := empty ⟨"events", .daily, "dt"⟩ .storeAll
    let u := empty ⟨"events", .daily, "dt"⟩ .endsAndHoles
    let commands := [.add ⟨.daily, 0, by decide, by decide⟩, .add ⟨.daily, 3, by decide, by decide⟩,
      .drop ⟨.daily, 0, by decide, by decide⟩, .reload]
    (t.run commands).2 = (u.run commands).2 ∧ SameViews (t.run commands).1 (u.run commands).1 := by
  intro t u commands
  have hhas : ∀ q, t.has q = u.has q := by
    intro q
    rw [has_empty, has_empty]
  exact run_listed_eq_holed (t := t) (u := u) rfl rfl rfl (consistent_empty _ _)
    (consistent_empty _ _) hhas commands

end Timeline
end PartitionLedger

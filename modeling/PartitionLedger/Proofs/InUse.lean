import PartitionLedger.Registry.Basic

/-! Which timelines are in use: what each move of a registry leaves of them, for each key. -/
namespace PartitionLedger

namespace Registry
variable {r : Registry} {key other : Key} {t u : Timeline} {l : Loaded} {handle n : Nat}

theorem cached?_eq_some : r.cached? key = some l ↔
    r.inUse key = some l.handle ∧ r.held? l.handle = some l.timeline := by
  obtain ⟨handle, t⟩ := l
  cases hin : r.inUse key with
  | none => simp [cached?, hin]
  | some m =>
    cases hheld : r.held? m with
    | none =>
      simp only [cached?, hin, hheld, bind, Option.bind, reduceCtorEq, Option.some.injEq, false_iff]
      rintro ⟨rfl, h⟩
      rw [hheld] at h
      cases h
    | some v =>
      simp only [cached?, hin, hheld, bind, Option.bind, pure, Option.some.injEq, Loaded.mk.injEq]
      refine and_congr_right fun he => ?_
      rw [← he, hheld, Option.some.injEq]

/-- The handle on the timeline in use for a key leads to it. -/
theorem held?_of_cached? (h : r.cached? key = some l) : r.held? l.handle = some l.timeline :=
  (cached?_eq_some.mp h).2

/-- A handle that is in use leads to a timeline. -/
theorem isSome_cached? (r : Registry) (key : Key) : (r.cached? key).isSome = (r.inUse key).isSome := by
  cases hin : r.inUse key with
  | none => simp [cached?, hin]
  | some handle =>
    obtain ⟨t, ht⟩ : ∃ t, r.held? handle = some t :=
      ⟨_, List.getElem?_eq_getElem (r.inUse_lt key handle hin)⟩
    simp [cached?, hin, ht]

/-- What is in use for a key depends on its handle and on what that leads to. -/
theorem cached?_congr {s : Registry} (hin : s.inUse key = r.inUse key)
    (hheld : ∀ handle, r.inUse key = some handle → s.held? handle = r.held? handle) :
    s.cached? key = r.cached? key := by
  cases h : r.inUse key with
  | none => simp [cached?, hin, h]
  | some handle => simp [cached?, hin, h, hheld handle h]

theorem held?_opened (h : r.held? handle = some u) : (r.opened key t).held? handle = some u := by
  obtain ⟨hlt, -⟩ := List.getElem?_eq_some_iff.mp h
  exact (List.getElem?_append_left hlt).trans h

theorem cached?_opened_self (r : Registry) (key : Key) (t : Timeline) :
    (r.opened key t).cached? key = some ⟨r.timelines.length, t⟩ :=
  cached?_eq_some.mpr ⟨if_pos rfl, List.getElem?_concat_length⟩

theorem cached?_opened_other (h : other ≠ key) :
    (r.opened key t).cached? other = r.cached? other := by
  refine cached?_congr (if_neg h) ?_
  intro handle hin
  exact List.getElem?_append_left (r.inUse_lt other handle hin)

theorem held?_setHeld_self (hheld : r.held? handle = some t) :
    (r.setHeld handle u).held? handle = some u :=
  List.getElem?_set_self (List.getElem?_eq_some_iff.mp hheld).1

theorem held?_setHeld_other (h : n ≠ handle) : (r.setHeld handle u).held? n = r.held? n :=
  List.getElem?_set_ne (Ne.symm h)

/-- Putting back what was there undoes a replacement. -/
theorem setHeld_setHeld (hheld : r.held? handle = some t) :
    (r.setHeld handle u).setHeld handle t = r := by
  obtain ⟨hlt, hget⟩ := List.getElem?_eq_some_iff.mp hheld
  simp only [setHeld, List.set_set]
  simp only [← hget, List.set_getElem_self]

theorem setHeld_same (hheld : r.held? handle = some t) : r.setHeld handle t = r := by
  obtain ⟨hlt, hget⟩ := List.getElem?_eq_some_iff.mp hheld
  simp only [setHeld, ← hget, List.set_getElem_self]

/-- A replacement is seen by the key that its handle is in use for. -/
theorem cached?_setHeld (hheld : r.held? handle = some t) (key : Key) :
    (r.setHeld handle u).cached? key =
      (r.cached? key).map fun l => if l.handle = handle then ⟨handle, u⟩ else l := by
  cases hin : r.inUse key with
  | none => simp [cached?, setHeld, hin]
  | some n =>
    by_cases hn : n = handle
    · subst hn
      have hset := held?_setHeld_self (u := u) hheld
      simp only [setHeld] at hset
      simp [cached?, setHeld, hin, hset, hheld]
    · have hset := held?_setHeld_other (r := r) (u := u) hn
      simp only [setHeld] at hset
      cases hold : r.held? n <;> simp [cached?, setHeld, hin, hset, hold, hn]

theorem cached?_setHeld_self (h : r.cached? key = some l) :
    (r.setHeld l.handle u).cached? key = some ⟨l.handle, u⟩ := by
  rw [cached?_setHeld (held?_of_cached? h), h]
  exact congrArg some (if_pos rfl)

/-- A replacement behind the handle of one key is not seen by another key. -/
theorem cached?_setHeld_other (h : r.cached? key = some l) (hne : other ≠ key) :
    (r.setHeld l.handle u).cached? other = r.cached? other := by
  refine cached?_congr rfl ?_
  intro handle hin
  refine held?_setHeld_other ?_
  rintro rfl
  exact hne (r.inUse_inj other key _ hin (cached?_eq_some.mp h).1)

theorem evict_answer (r : Registry) (key : Key) : (r.evict key).2 = (r.cached? key).isSome :=
  (r.isSome_cached? key).symm

/-- Evicting a key puts no timeline of it in use. -/
theorem cached?_evict_self (r : Registry) (key : Key) : (r.evict key).1.cached? key = none := by
  simp [evict, cached?]

theorem cached?_evict_other (h : other ≠ key) : (r.evict key).1.cached? other = r.cached? other :=
  cached?_congr (if_neg h) fun _ _ => rfl

end Registry
end PartitionLedger

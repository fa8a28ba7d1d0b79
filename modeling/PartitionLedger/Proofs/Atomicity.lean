import PartitionLedger.Proofs.Changes

/-!
A call that fails changes nothing: whatever went wrong, and however far the change had come, the
store and every timeline are as before, and at most the key's own timeline has been loaded.
-/
namespace PartitionLedger.Registry

variable {r s : Registry} {key other : Key} {call : Call}

/-- What a registry has that did no more than load the timeline of a key, from `r` on. -/
structure AtMostLoaded (r : Registry) (key : Key) (s : Registry) : Prop where
  store : s.store.Same r.store
  config : s.config = r.config
  held : ∀ handle t, r.held? handle = some t → s.held? handle = some t
  others : ∀ other, other ≠ key → s.cached? other = r.cached? other
  self : s.cached? key = r.cached? key ∨
    r.cached? key = none ∧ r.store.failReads = false ∧
      ∃ t, timelineOf r.config key (r.store.table key.table) = .ok t ∧
        s.cached? key = some ⟨r.timelines.length, t⟩

theorem AtMostLoaded.withStore (h : AtMostLoaded r key s) {store : Store}
    (hs : store.Same s.store) : AtMostLoaded r key { s with store } :=
  ⟨hs.trans h.store, h.config, h.held, h.others, h.self⟩

theorem access_atMostLoaded (r : Registry) (key : Key) : AtMostLoaded r key (r.access key).1 := by
  rcases r.access_cases key with
    ⟨l, -, haccess⟩ | ⟨hnone, store, hstore, ⟨e, haccess, -⟩ | ⟨t, haccess, hreads, ht⟩⟩
  · rw [haccess]
    exact ⟨Store.Same.refl _, rfl, fun _ _ h => h, fun _ _ => rfl, Or.inl rfl⟩
  · rw [haccess]
    exact ⟨hstore, rfl, fun _ _ h => h, fun _ _ => rfl, Or.inl rfl⟩
  · rw [haccess]
    refine ⟨hstore, rfl, ?_, ?_, Or.inr ⟨hnone, hreads, t, ht, ?_⟩⟩
    · intro handle u hu
      exact held?_opened hu
    · intro other hother
      exact cached?_opened_other hother
    · exact cached?_opened_self _ key t

theorem config_change {edit : Timeline → Timeline × Except TimelineError Bool}
    (hs : Timeline.Sound edit) (r : Registry) (key : Key) :
    (r.change key edit).1.config = r.config := by
  have haccess := (r.access_atMostLoaded key).config
  rcases change_cases hs r key with ⟨_, store, -, hchange⟩ | ⟨l, -, ⟨-, hchange⟩ | ⟨-, -, hchange⟩⟩
  · rw [hchange]
    exact haccess
  · rw [hchange]
    exact haccess
  · rw [hchange]
    exact haccess

/-- A change that fails was undone, whether the timeline, the store or the loading refused it. -/
theorem change_error {edit : Timeline → Timeline × Except TimelineError Bool}
    (hs : Timeline.Sound edit) {e : RegistryError} (h : (r.change key edit).2 = .error e) :
    AtMostLoaded r key (r.change key edit).1 := by
  have haccess := r.access_atMostLoaded key
  rcases change_cases hs r key with
    ⟨_, store, hstore, hchange⟩ | ⟨l, -, ⟨-, hchange⟩ | ⟨-, -, hchange⟩⟩
  · rw [hchange]
    exact haccess.withStore hstore
  · rw [hchange] at h
    cases h
  · rw [hchange] at h
    cases h

/-- Whatever the registry is, a call that fails has at most loaded the timeline of its key. -/
theorem failed_call_atMostLoaded (r : Registry) (key : Key) (call : Call) {e : RegistryError}
    (h : (r.perform key call).2 = .error e) : AtMostLoaded r key (r.perform key call).1 := by
  rcases call_cases call with ⟨edit, hedit⟩ | ⟨look, hlook⟩ | rfl
  · rw [perform_edit hedit] at h ⊢
    exact change_error (Call.sound_edit? hedit) (map_eq_error.mp h)
  · rw [perform_look hlook]
    exact r.access_atMostLoaded key
  · cases h

/-- Two days are added before the week among them is refused. -/
theorem failed_batch_atMostLoaded :
    let r := ofStore .empty .standard
    let key : Key := ⟨"events", .daily, "dt"⟩
    let week : Partition := ⟨.weekly, 7, by decide, by decide⟩
    let call := .addAll [⟨.daily, 3, by decide, by decide⟩, ⟨.daily, 0, by decide, by decide⟩, week]
    (r.perform key call).2 = .error (.timeline (.invalidPartition key week)) ∧
      AtMostLoaded r key (r.perform key call).1 := by
  intro r key week call
  have h : (r.perform key call).2 = .error (.timeline (.invalidPartition key week)) := by rfl
  exact ⟨h, failed_call_atMostLoaded r key call h⟩

end PartitionLedger.Registry

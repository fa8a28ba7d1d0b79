import PartitionLedger.Proofs.Atomicity

/-!
What a call leaves of the keys that it is not about: the same timelines are in use for them.
-/
namespace PartitionLedger.Registry

variable {r : Registry} {key other : Key} {edit : Timeline → Timeline × Except TimelineError Bool}

theorem cached?_access_other (hne : other ≠ key) : (r.access key).1.cached? other = r.cached? other :=
  (r.access_atMostLoaded key).others other hne

theorem cached?_change_other (hs : Timeline.Sound edit) (hne : other ≠ key) :
    (r.change key edit).1.cached? other = r.cached? other := by
  have haccess := cached?_access_other (r := r) hne
  rcases change_cases hs r key with
    ⟨_, store, -, hchange⟩ | ⟨l, hl, ⟨-, hchange⟩ | ⟨-, -, hchange⟩⟩
  · rw [hchange]
    exact haccess
  · rw [hchange]
    exact haccess
  · rw [hchange, ← haccess]
    exact cached?_committed_other (cached?_access hl) _ hne

theorem cached?_perform_other (call : Call) (hne : other ≠ key) :
    (r.perform key call).1.cached? other = r.cached? other := by
  rcases call_cases call with ⟨edit, hedit⟩ | ⟨look, hlook⟩ | rfl
  · rw [perform_edit hedit]
    exact cached?_change_other (Call.sound_edit? hedit) hne
  · rw [perform_look hlook]
    exact cached?_access_other hne
  · exact cached?_evict_other hne

theorem config_perform (r : Registry) (key : Key) (call : Call) :
    (r.perform key call).1.config = r.config := by
  rcases call_cases call with ⟨edit, hedit⟩ | ⟨look, hlook⟩ | rfl
  · rw [perform_edit hedit]
    exact config_change (Call.sound_edit? hedit) r key
  · rw [perform_look hlook]
    exact (r.access_atMostLoaded key).config
  · rfl

end PartitionLedger.Registry

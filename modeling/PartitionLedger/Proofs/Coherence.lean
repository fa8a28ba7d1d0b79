import PartitionLedger.Proofs.Atomicity
import PartitionLedger.Proofs.TableScope

/-!
A timeline in use is what its table stands for, for every key at once. Each event that the registry
brings about itself keeps it so, and so does every history of them. What was persisted is loaded again.
-/
namespace PartitionLedger

/-- What a registry brings about itself, with its store failing at times. The other events are those
of somebody else who writes the store, or of a holder who changes a timeline. -/
def Event.Own : Event → Prop
  | .call _ _ | .restart _ | .failReads _ | .failWrites _ => True
  | .addHeld _ _ | .setTable _ _ | .upsert _ _ => False

namespace Registry
variable {r s : Registry} {key other : Key} {t u : Timeline} {l : Loaded}

/-- Every timeline in use is what its table stands for. -/
def Coherent (r : Registry) : Prop :=
  ∀ key l, r.cached? key = some l →
    timelineOf r.config key (r.store.table key.table) = .ok l.timeline

theorem Coherent.of_same {store : Store} (hs : store.Same r.store) (h : r.Coherent) :
    ({ r with store } : Registry).Coherent := by
  intro key l hl
  rw [hs.table]
  exact h key l hl

theorem coherent_ofStore (store : Store) (config : Config) : (ofStore store config).Coherent := by
  intro key l hl
  cases hl

theorem AtMostLoaded.coherent (hs : AtMostLoaded r key s) (h : r.Coherent) : s.Coherent := by
  intro k l hl
  rw [hs.config, hs.store.table]
  by_cases hk : k = key
  · subst hk
    rcases hs.self with hself | ⟨-, -, t, ht, hself⟩
    · exact h k l (hself ▸ hl)
    · rw [hself] at hl
      cases hl
      exact ht
  · exact h k l (hs.others k hk ▸ hl)

theorem coherent_access (h : r.Coherent) (key : Key) : (r.access key).1.Coherent :=
  (r.access_atMostLoaded key).coherent h

/-- What a table stands for does not change when a timeline of another key is written. -/
theorem timelineOf_written_other (hne : other ≠ t.key) (store : Store) (config : Config) :
    timelineOf config other ((store.written t).table other.table) =
      timelineOf config other (store.table other.table) := by
  rw [Store.table_written]
  split
  · rename_i htable
    rw [htable]
    exact timelineOf_congr (Key.ofTable_upsert_other t.contents htable.symm hne.symm _)
  · rfl

theorem timelineOf_written_self (h : t.Consistent) (store : Store) (config : Config) :
    timelineOf config t.key ((store.written t).table t.key.table) = .ok t := by
  rw [Store.table_written, if_pos rfl]
  exact timelineOf_written h config _

theorem coherent_committed (h : r.Coherent) (hl : r.cached? key = some l) (hkey : u.key = key)
    (hu : u.Consistent) : (r.committed l.handle u).Coherent := by
  intro k m hm
  change timelineOf r.config k ((r.store.written u).table k.table) = .ok m.timeline
  by_cases hk : k = key
  · subst hk
    rw [cached?_committed_self hl] at hm
    cases hm
    subst hkey
    exact timelineOf_written_self hu _ _
  · have hne : k ≠ u.key := fun he => hk (he.trans hkey)
    rw [cached?_committed_other hl u hk] at hm
    rw [timelineOf_written_other hne]
    exact h k m hm

theorem coherent_change {edit : Timeline → Timeline × Except TimelineError Bool}
    (hs : Timeline.Sound edit) (h : r.Coherent) (key : Key) : (r.change key edit).1.Coherent := by
  have haccess := coherent_access h key
  rcases change_cases hs r key with
    ⟨_, store, hstore, hchange⟩ | ⟨l, hl, ⟨-, hchange⟩ | ⟨-, -, hchange⟩⟩
  · rw [hchange]
    exact haccess.of_same hstore
  · rw [hchange]
    exact haccess
  · rw [hchange]
    have hcached := cached?_access hl
    obtain ⟨hkey, hconsistent⟩ := of_timelineOf (haccess key l hcached)
    exact coherent_committed haccess hcached ((hs.key _).trans hkey) (hs.consistent _ hconsistent)

theorem coherent_evict (h : r.Coherent) (key : Key) : (r.evict key).1.Coherent := by
  intro k l hl
  by_cases hk : k = key
  · rw [hk, cached?_evict_self] at hl
    cases hl
  · rw [cached?_evict_other hk] at hl
    exact h k l hl

theorem coherent_perform (h : r.Coherent) (key : Key) (call : Call) :
    (r.perform key call).1.Coherent := by
  rcases call_cases call with ⟨edit, hedit⟩ | ⟨look, hlook⟩ | rfl
  · rw [perform_edit hedit]
    exact coherent_change (Call.sound_edit? hedit) h key
  · rw [perform_look hlook]
    exact coherent_access h key
  · exact coherent_evict h key

theorem coherent_after {e : Event} (ho : e.Own) (h : r.Coherent) : (r.after e).Coherent := by
  cases e with
  | call key call => exact coherent_perform h key call
  | restart config =>
    intro key l hl
    cases hl
  | failReads on => exact h
  | failWrites on => exact h
  | addHeld handle q => exact ho.elim
  | setTable name bag => exact ho.elim
  | upsert name bag => exact ho.elim

theorem coherent_afterAll {history : List Event} (ho : ∀ e ∈ history, e.Own) (h : r.Coherent) :
    (r.afterAll history).Coherent := by
  induction history generalizing r with
  | nil => exact h
  | cons e rest ih =>
    have hfirst := coherent_after (ho e List.mem_cons_self) h
    exact ih (fun d hd => ho d (List.mem_cons_of_mem e hd)) hfirst

/-- A timeline that is not in use is what the table stands for, if reads work. -/
theorem access_uncached (hnone : r.cached? key = none) (hreads : r.store.failReads = false) :
    (r.access key).2.map Loaded.timeline = timelineOf r.config key (r.store.table key.table) := by
  rw [access_outcome, hnone]
  simp [stored, hreads]

/-- In a coherent registry an access gives what the table stands for, if reads work: whether the
timeline was in use does not matter. -/
theorem access_coherent (h : r.Coherent) (hreads : r.store.failReads = false) (key : Key) :
    (r.access key).2.map Loaded.timeline = timelineOf r.config key (r.store.table key.table) := by
  cases hcached : r.cached? key with
  | none => exact access_uncached hcached hreads
  | some l =>
    rw [access_of_cached hcached, h key l hcached]
    rfl

/-- A consistent timeline that was persisted is what any registry then loads for its key, whatever the
table held before and whatever the configuration is. -/
theorem persisted_is_loaded {store : Store} (ht : t.Consistent)
    (hwrites : store.failWrites = false) :
    ∃ store', persist store t = (store', .ok ()) ∧
      store'.table t.key.table =
        (store.table t.key.table).upsert (t.key.toTable t.strategy t.encode) ∧
      ∀ r : Registry, r.store.table t.key.table = store'.table t.key.table →
        r.store.failReads = false → r.cached? t.key = none →
          ∃ l, (r.access t.key).2 = .ok l ∧ l.timeline = t := by
  refine ⟨store.written t, persist_working hwrites t, ?_, ?_⟩
  · rw [Store.table_written, if_pos rfl]
  · intro r htable hreads hnone
    have haccess := access_uncached hnone hreads
    rw [htable, timelineOf_written_self ht] at haccess
    exact map_eq_ok.mp haccess

/-- An empty timeline was persisted over a corrupt one of another strategy. -/
theorem persisted_is_loaded_over_corrupt :
    let key : Key := ⟨"events", .daily, "dt"⟩
    let stale : Bag := OrderedMap.ofList [(key.scope ++ "first", "1970-1-1"),
      (key.scope ++ "holes", ","), (key.scope ++ "storage.class", "continuous")]
    let store := Store.empty.setTable "events" stale
    let t := Timeline.empty key .endsAndHoles
    ∃ store', persist store t = (store', .ok ()) ∧
      ∃ l, ((ofStore store' .standard).access key).2 = .ok l ∧ l.timeline = t := by
  intro key stale store t
  have hwrites : store.failWrites = false := rfl
  obtain ⟨store', hpersist, -, hload⟩ :=
    persisted_is_loaded (Timeline.consistent_empty key .endsAndHoles) hwrites
  have hreads : store'.failReads = false := by
    cases hpersist
    rfl
  exact ⟨store', hpersist, hload (ofStore store' .standard) rfl hreads rfl⟩

end Registry
end PartitionLedger

import PartitionLedger.Proofs.Existing
import PartitionLedger.Proofs.InUse
import PartitionLedger.Registry.History

/-!
What the calls of a registry can do, one inversion for each: an access finds, loads or fails; a
change is undone, idle or written. What later proofs need of a call they take from here.
-/
namespace PartitionLedger

namespace Store
variable {s s' s'' : Store}

/-- Stores that hold the same and fail alike. The reads and writes they count may differ. -/
structure Same (s s' : Store) : Prop where
  tables : s.tables = s'.tables
  failReads : s.failReads = s'.failReads
  failWrites : s.failWrites = s'.failWrites

theorem Same.refl (s : Store) : Same s s := ⟨rfl, rfl, rfl⟩

theorem Same.symm (h : Same s s') : Same s' s := ⟨h.tables.symm, h.failReads.symm, h.failWrites.symm⟩

theorem Same.trans (h : Same s s') (h' : Same s' s'') : Same s s'' :=
  ⟨h.tables.trans h'.tables, h.failReads.trans h'.failReads, h.failWrites.trans h'.failWrites⟩

theorem Same.table (h : Same s s') (name : String) : s.table name = s'.table name := by
  rw [Store.table, Store.table, h.tables]

theorem table_setTable (s : Store) (name other : String) (bag : Bag) :
    (s.setTable name bag).table other = if other = name then bag else s.table other := by
  simp only [table, setTable, OrderedMap.get?_insert]
  split <;> rfl

/-- The store after a timeline has been written to it. -/
def written (s : Store) (t : Timeline) : Store :=
  { s.setTable t.key.table ((s.table t.key.table).upsert (t.key.toTable t.strategy t.encode)) with
    writes := s.writes + 1 }

theorem table_written (s : Store) (t : Timeline) (name : String) :
    (s.written t).table name = if name = t.key.table then
      (s.table t.key.table).upsert (t.key.toTable t.strategy t.encode) else s.table name :=
  table_setTable s t.key.table name _

end Store

namespace Registry
variable {r : Registry} {key : Key} {t : Timeline} {config : Config} {table : Bag}
  {edit : Timeline → Timeline × Except TimelineError Bool}

/-- What a table stands for depends on what stands behind the key's scope. -/
theorem timelineOf_congr {table' : Bag} (h : key.ofTable table = key.ofTable table') :
    timelineOf config key table = timelineOf config key table' := by
  rw [timelineOf, timelineOf, h]

theorem of_load {u : Timeline} {bag : Bag} (h : t.load bag = (u, .ok true)) :
    u.key = t.key ∧ u.Consistent := by
  simp only [Timeline.load] at h
  split at h
  · obtain ⟨rfl, hflag⟩ := Prod.mk.inj h
    exact ⟨rfl, of_decide_eq_true (Except.ok.inj hflag)⟩
  · cases (Prod.mk.inj h).2

/-- What a table stands for is a consistent timeline of the key. -/
theorem of_timelineOf (h : timelineOf config key table = .ok t) : t.key = key ∧ t.Consistent := by
  simp only [timelineOf] at h
  split at h
  · cases h
    exact ⟨rfl, Timeline.consistent_empty _ _⟩
  · split at h
    · cases h
    · split at h
      · cases h
      · cases h
      · rename_i hload
        cases h
        exact of_load hload

theorem persist_failing {s : Store} (h : s.failWrites = true) (t : Timeline) :
    ∃ store e, store.Same s ∧ persist s t = (store, .error e) := by
  obtain ⟨tables, failReads, failWrites, reads, writes⟩ := s
  cases h
  exact ⟨⟨tables, failReads, true, reads, writes + 1⟩,
    .persist t.key (.writesFailing t.key.table), ⟨rfl, rfl, rfl⟩, rfl⟩

theorem persist_working {s : Store} (h : s.failWrites = false) (t : Timeline) :
    persist s t = (s.written t, .ok ()) := by
  obtain ⟨tables, failReads, failWrites, reads, writes⟩ := s
  cases h
  rfl

/-- A registry that has read its store once more. -/
def fetched (r : Registry) : Registry := { r with store := { r.store with reads := r.store.reads + 1 } }

/-- What the store gives for a key. -/
def stored (r : Registry) (key : Key) : Except RegistryError Timeline :=
  if r.store.failReads then .error (.load key.table (.readsFailing key.table))
  else timelineOf r.config key (r.store.table key.table)

theorem stored_eq_ok : r.stored key = .ok t ↔
    r.store.failReads = false ∧ timelineOf r.config key (r.store.table key.table) = .ok t := by
  cases hfail : r.store.failReads <;> simp [stored, hfail]

theorem access_of_cached {l : Loaded} (h : r.cached? key = some l) : r.access key = (r, .ok l) := by
  simp only [access, h]

/-- A timeline that is not in use is read from the store, and put in use if the store gives one. -/
theorem access_of_uncached (h : r.cached? key = none) :
    (∃ e, r.stored key = .error e ∧ r.access key = (r.fetched, .error e)) ∨
      ∃ t, r.stored key = .ok t ∧
        r.access key = (r.fetched.opened key t, .ok ⟨r.timelines.length, t⟩) := by
  cases hfail : r.store.failReads with
  | true =>
    refine Or.inl ⟨.load key.table (.readsFailing key.table), by simp [stored, hfail], ?_⟩
    simp [access, h, Store.read, hfail, fetched]
  | false =>
    cases ht : timelineOf r.config key (r.store.table key.table) with
    | error e =>
      refine Or.inl ⟨e, by simp [stored, hfail, ht], ?_⟩
      simp [access, h, Store.read, hfail, ht, fetched]
    | ok t =>
      refine Or.inr ⟨t, by simp [stored, hfail, ht], ?_⟩
      simp [access, h, Store.read, hfail, ht, fetched]

/-- An access gives the timeline in use, or else what the store gives. -/
theorem access_outcome (r : Registry) (key : Key) : (r.access key).2.map Loaded.timeline =
    ((r.cached? key).map Loaded.timeline).elim (r.stored key) .ok := by
  cases hc : r.cached? key with
  | some l =>
    rw [access_of_cached hc]
    rfl
  | none =>
    rcases access_of_uncached hc with ⟨e, hstored, haccess⟩ | ⟨t, hstored, haccess⟩
    · rw [haccess, hstored]
      rfl
    · rw [haccess, hstored]
      rfl

/-- The timeline in use is found; else it is loaded, if reads work and the table stands for one. -/
theorem access_cases (r : Registry) (key : Key) :
    (∃ l, r.cached? key = some l ∧ r.access key = (r, .ok l)) ∨
      r.cached? key = none ∧ ∃ store, store.Same r.store ∧
        ((∃ e, r.access key = ({ r with store }, .error e) ∧
            (r.store.failReads = false →
              timelineOf r.config key (r.store.table key.table) = .error e)) ∨
          ∃ t, r.access key =
              (({ r with store } : Registry).opened key t, .ok ⟨r.timelines.length, t⟩) ∧
            r.store.failReads = false ∧
              timelineOf r.config key (r.store.table key.table) = .ok t) := by
  cases hc : r.cached? key with
  | some l => exact Or.inl ⟨l, rfl, access_of_cached hc⟩
  | none =>
    refine Or.inr ⟨rfl, r.fetched.store, ⟨rfl, rfl, rfl⟩, ?_⟩
    rcases access_of_uncached hc with ⟨e, hstored, haccess⟩ | ⟨t, hstored, haccess⟩
    · refine Or.inl ⟨e, haccess, ?_⟩
      intro hreads
      simpa [stored, hreads] using hstored
    · exact Or.inr ⟨t, haccess, stored_eq_ok.mp hstored⟩

/-- A registry that has written a timeline in place of the one behind a handle. -/
def committed (r : Registry) (handle : Nat) (t : Timeline) : Registry :=
  { r with store := r.store.written t }.setHeld handle t

/-- An access leaves the timeline that it gives in use, under the handle that it gives. -/
theorem cached?_access {l : Loaded} (h : (r.access key).2 = .ok l) :
    (r.access key).1.cached? key = some l := by
  rcases r.access_cases key with
    ⟨m, hm, haccess⟩ | ⟨-, store, -, ⟨e, haccess, -⟩ | ⟨t, haccess, -⟩⟩
  · rw [haccess] at h ⊢
    cases h
    exact hm
  · rw [haccess] at h
    cases h
  · rw [haccess] at h ⊢
    cases h
    exact cached?_opened_self _ key t

/-- After an access the timeline is in use exactly if the access gave it. -/
theorem isSome_cached?_access (r : Registry) (key : Key) :
    ((r.access key).1.cached? key).isSome = (r.access key).2.isOk := by
  rcases r.access_cases key with
    ⟨l, hl, haccess⟩ | ⟨hnone, store, -, ⟨e, haccess, -⟩ | ⟨t, haccess, -⟩⟩
  · rw [haccess, hl]
    rfl
  · have hsame : ({ r with store } : Registry).cached? key = none := hnone
    rw [haccess, hsame]
    rfl
  · rw [haccess, cached?_opened_self]
    rfl

section Committed
variable {l : Loaded} (hl : r.cached? key = some l) (u : Timeline)
include hl

theorem cached?_committed_self : (r.committed l.handle u).cached? key = some ⟨l.handle, u⟩ :=
  cached?_setHeld_self (r := { r with store := r.store.written u }) hl

theorem cached?_committed_other {other : Key} (hne : other ≠ key) :
    (r.committed l.handle u).cached? other = r.cached? other :=
  cached?_setHeld_other (r := { r with store := r.store.written u }) hl hne

end Committed

/-- A change that fails leaves what the access left; one that changes nothing does so too. -/
theorem change_cases (hs : Timeline.Sound edit) (r : Registry) (key : Key) :
    (∃ e store, store.Same (r.access key).1.store ∧
        r.change key edit = ({ (r.access key).1 with store }, .error e)) ∨
      ∃ l, (r.access key).2 = .ok l ∧
        ((edit l.timeline).2 = .ok false ∧ r.change key edit = ((r.access key).1, .ok false) ∨
          (edit l.timeline).2 = .ok true ∧ (r.access key).1.store.failWrites = false ∧
            r.change key edit =
              ((r.access key).1.committed l.handle (edit l.timeline).1, .ok true)) := by
  have hheld : ∀ l, (r.access key).2 = .ok l →
      (r.access key).1.held? l.handle = some l.timeline := by
    intro l hl
    exact held?_of_cached? (cached?_access hl)
  simp only [change]
  -- the rest needs of the access only that it leaves in use what it gives
  generalize r.access key = result at hheld ⊢
  obtain ⟨r, outcome⟩ := result
  cases outcome with
  | error e => exact Or.inl ⟨e, r.store, Store.Same.refl _, rfl⟩
  | ok l =>
    have hheld : r.held? l.handle = some l.timeline := hheld l rfl
    have hunchanged := hs.unchanged l.timeline
    dsimp only
    cases hedit : edit l.timeline with
    | mk u answer =>
      rw [hedit] at hunchanged
      cases answer with
      | error e =>
        refine Or.inl ⟨.timeline e, r.store, Store.Same.refl _, ?_⟩
        simp only [persistEdited, setHeld_setHeld hheld]
      | ok flag =>
        cases flag with
        | false =>
          have hu : u = l.timeline := hunchanged rfl
          refine Or.inr ⟨l, rfl, Or.inl ⟨by rw [hedit], ?_⟩⟩
          simp only [persistEdited, hu, setHeld_same hheld]
        | true =>
          cases hfail : r.store.failWrites with
          | true =>
            obtain ⟨store, e, hsame, hpersist⟩ := persist_failing hfail u
            refine Or.inl ⟨e, store, hsame, ?_⟩
            have hheld' : ({ r with store } : Registry).held? l.handle = some l.timeline := hheld
            simp only [persistEdited, hpersist, Prod.map, Except.map, id, setHeld_setHeld hheld']
          | false =>
            refine Or.inr ⟨l, rfl, Or.inr ⟨by rw [hedit], rfl, ?_⟩⟩
            rw [hedit]
            simp only [persistEdited, persist_working hfail, Prod.map, Except.map, id, committed]

/-- A change has the timelines in use that the access before it has. -/
theorem isSome_cached?_change (hs : Timeline.Sound edit) (r : Registry) (key k : Key) :
    ((r.change key edit).1.cached? k).isSome = ((r.access key).1.cached? k).isSome := by
  rw [isSome_cached?, isSome_cached?]
  rcases change_cases hs r key with ⟨_, store, -, hchange⟩ | ⟨l, -, ⟨-, hchange⟩ | ⟨-, -, hchange⟩⟩
  · rw [hchange]
  · rw [hchange]
  · rw [hchange]
    rfl

/-- What a change answers: why the timeline cannot be had, or what the edit and the write say. -/
theorem change_answer (r : Registry) (key : Key)
    (edit : Timeline → Timeline × Except TimelineError Bool) :
    (r.change key edit).2 = (r.access key).2.bind fun l =>
      (persistEdited (r.access key).1.store (edit l.timeline).1 (edit l.timeline).2).2 := by
  simp only [change]
  generalize r.access key = result
  rcases result with ⟨s, e | l⟩
  · rfl
  · simp only [Except.bind]
    cases (persistEdited s.store (edit l.timeline).1 (edit l.timeline).2).2 <;> rfl

/-- What the store is after a change: what the access leaves, and what is written to it then. -/
theorem store_change (r : Registry) (key : Key)
    (edit : Timeline → Timeline × Except TimelineError Bool) :
    (r.change key edit).1.store = match (r.access key).2 with
      | .error _ => (r.access key).1.store
      | .ok l => (persistEdited (r.access key).1.store (edit l.timeline).1 (edit l.timeline).2).1 := by
  simp only [change]
  generalize r.access key = result
  rcases result with ⟨s, e | l⟩
  · rfl
  · dsimp only
    cases (persistEdited s.store (edit l.timeline).1 (edit l.timeline).2).2 <;> rfl

/-- While writes work a change answers what the edit says. -/
theorem change_working {l : Loaded} {flag : Bool}
    (hl : (r.access key).2 = .ok l) (hwrites : (r.access key).1.store.failWrites = false)
    (hok : (edit l.timeline).2 = .ok flag) : (r.change key edit).2 = .ok flag := by
  rw [change_answer, hl]
  simp only [Except.bind, hok]
  cases flag with
  | false => rfl
  | true =>
    simp only [persistEdited, persist_working hwrites]
    rfl

end Registry

namespace Call

/-- What a call does to the timeline, if it is a change. -/
def edit? : Call → Option (Timeline → Timeline × Except TimelineError Bool)
  | add q => some (·.add q)
  | addAll qs => some (·.addAll qs)
  | addRange range => some (·.addRange range)
  | drop q => some (·.drop q)
  | _ => none

/-- What a call answers, if it only looks at the timeline. -/
def look? : Call → Option (Loaded → Except RegistryError Answer)
  | read => some fun l => .ok (.timeline l.timeline)
  | list => some fun l => .ok (.partitions l.timeline.toList)
  | listWithin range => some fun l =>
    ((l.timeline.toListWithin range).map .partitions).mapError .timeline
  | has qs => some fun l => .ok (.flags (qs.map l.timeline.has))
  | hold => some fun l => .ok (.handle l.handle)
  | _ => none

theorem sound_edit? {call : Call} {edit : Timeline → Timeline × Except TimelineError Bool}
    (h : call.edit? = some edit) : Timeline.Sound edit := by
  cases call with
  | add q =>
    cases h
    exact Timeline.sound_add q
  | addAll qs =>
    cases h
    exact Timeline.sound_addAll qs
  | addRange range =>
    cases h
    exact Timeline.sound_addRange range
  | drop q =>
    cases h
    exact Timeline.sound_drop q
  | read => cases h
  | list => cases h
  | listWithin range => cases h
  | has qs => cases h
  | hold => cases h
  | evict => cases h

section Kinds
variable {call : Call} {edit : Timeline → Timeline × Except TimelineError Bool}
  {look : Loaded → Except RegistryError Answer}

theorem ne_evict_of_edit? (h : call.edit? = some edit) : call ≠ .evict := by
  rintro rfl
  cases h

theorem ne_evict_of_look? (h : call.look? = some look) : call ≠ .evict := by
  rintro rfl
  cases h

theorem edit?_of_look? (h : call.look? = some look) : call.edit? = none := by
  cases call <;> first | rfl | cases h

end Kinds
end Call

namespace Registry
variable {r : Registry} {key : Key} {call : Call}

theorem perform_edit {edit : Timeline → Timeline × Except TimelineError Bool}
    (h : call.edit? = some edit) :
    r.perform key call = (r.change key edit).map id (·.map .changed) := by
  cases call <;> cases h <;> rfl

theorem perform_look {look : Loaded → Except RegistryError Answer} (h : call.look? = some look) :
    r.perform key call = ((r.access key).1, (r.access key).2.bind look) := by
  cases call <;> cases h <;> simp only [perform, ask] <;> rcases r.access key with ⟨s, _ | l⟩ <;> rfl

/-- Every call changes the timeline, looks at it or evicts it. -/
theorem call_cases (call : Call) :
    (∃ edit, call.edit? = some edit) ∨ (∃ look, call.look? = some look) ∨ call = .evict := by
  cases call <;> simp [Call.edit?, Call.look?]

end Registry
end PartitionLedger

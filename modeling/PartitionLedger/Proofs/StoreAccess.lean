import PartitionLedger.Proofs.LoadGate

/-!
When the calls of a registry read and write its store, and what they write. A timeline is read once
and stays in use until it is evicted, so whether a call reads depends on the whole history before it;
a write is made for a change that has come about in memory, and for nothing else.
-/
namespace PartitionLedger.Registry

variable {r : Registry} {key : Key} {call : Call} {t u : Timeline} {l : Loaded}
  {edit : Timeline → Timeline × Except TimelineError Bool}

section InUse

/-- A timeline is in use if it was so before and nothing evicted it, or else since a call that needed
it and had it. -/
theorem isSome_cached?_afterAll (r : Registry) (history : List Event) :
    ((r.afterAll history).cached? key).isSome ↔
      (r.cached? key).isSome ∧ (∀ d ∈ history, ¬ d.Evicts key) ∨
      ∃ before d later, history = before ++ d :: later ∧ d.Needs key ∧
        (∃ l, ((r.afterAll before).access key).2 = .ok l) ∧ ∀ d ∈ later, ¬ d.Evicts key := by
  induction history generalizing r with
  | nil => simp [afterAll]
  | cons d rest ih =>
    change (((r.after d).afterAll rest).cached? key).isSome ↔ _
    rw [ih, isSome_cached?_after, List.forall_mem_cons]
    constructor
    · rintro (⟨⟨hneeds, haccess⟩ | ⟨hsome, hstays⟩, hrest⟩ | ⟨before, d', later, rfl, hsince⟩)
      · exact Or.inr ⟨[], d, rest, rfl, hneeds, haccess, hrest⟩
      · exact Or.inl ⟨hsome, hstays, hrest⟩
      · exact Or.inr ⟨d :: before, d', later, rfl, hsince⟩
    · rintro (⟨hsome, hstays, hrest⟩ | ⟨before, d', later, hhistory, hneeds, haccess, hrest⟩)
      · exact Or.inl ⟨Or.inr ⟨hsome, hstays⟩, hrest⟩
      · cases before with
        | nil =>
          cases hhistory
          exact Or.inl ⟨Or.inl ⟨hneeds, haccess⟩, hrest⟩
        | cons first before =>
          cases hhistory
          exact Or.inr ⟨before, d', later, rfl, hneeds, haccess, hrest⟩

end InUse

section Counts

theorem reads_call (r : Registry) (key : Key) (call : Call) : (r.perform key call).1.store.reads =
    r.store.reads + if call ≠ .evict ∧ r.cached? key = none then 1 else 0 := by
  by_cases hcall : call = .evict
  · subst hcall
    rfl
  · rw [reads_perform r key hcall]
    cases hc : r.cached? key with
    | none => simp [hcall, reads_access hc]
    | some l => simp [access_of_cached hc]

/-- The call is a change that has its timeline and makes another one of it in memory. -/
def Makes (r : Registry) (key : Key) (call : Call) (t u : Timeline) : Prop :=
  ∃ edit l, call.edit? = some edit ∧ (r.access key).2 = .ok l ∧ l.timeline = t ∧
    edit t = (u, .ok true)

theorem writes_access (r : Registry) (key : Key) :
    (r.access key).1.store.writes = r.store.writes := by
  cases hc : r.cached? key with
  | some l => rw [access_of_cached hc]
  | none =>
    rcases access_of_uncached hc with ⟨e, -, haccess⟩ | ⟨t, -, haccess⟩
    · rw [haccess]
      rfl
    · rw [haccess]
      rfl

theorem writes_persistEdited_true (store : Store) (t : Timeline) :
    (persistEdited store t (.ok true)).1.writes = store.writes + 1 := by
  obtain ⟨tables, failReads, failWrites, reads, writes⟩ := store
  cases failWrites <;> rfl

theorem writes_persistEdited_of_ne {outcome : Except TimelineError Bool} (h : outcome ≠ .ok true)
    (store : Store) (t : Timeline) : (persistEdited store t outcome).1.writes = store.writes := by
  rcases outcome with e | _ | _
  · rfl
  · rfl
  · exact absurd rfl h

/-- A call writes for a change that has come about in memory, also where the write then fails. -/
theorem writes_of_makes (h : r.Makes key call t u) :
    (r.perform key call).1.store.writes = r.store.writes + 1 := by
  obtain ⟨edit, l, hedit, hl, rfl, hmade⟩ := h
  rw [perform_edit hedit]
  change (r.change key edit).1.store.writes = _
  rw [store_change, hl]
  simp only [hmade, writes_persistEdited_true, writes_access]

theorem writes_of_not_makes (h : ∀ t u, ¬ r.Makes key call t u) :
    (r.perform key call).1.store.writes = r.store.writes := by
  rcases call_cases call with ⟨edit, hedit⟩ | ⟨look, hlook⟩ | rfl
  · rw [perform_edit hedit]
    change (r.change key edit).1.store.writes = _
    rw [store_change]
    cases hl : (r.access key).2 with
    | error e => exact writes_access r key
    | ok l =>
      have hnot : (edit l.timeline).2 ≠ .ok true := by
        intro htrue
        exact h l.timeline _ ⟨edit, l, hedit, hl, rfl, Prod.ext rfl htrue⟩
      simp only [writes_persistEdited_of_ne hnot, writes_access]
  · rw [perform_look hlook, writes_access]
  · rfl

end Counts

section Contents

/-- Nothing is written but by a change that says so. -/
theorem tables_perform (h : call.edit? = none ∨ (r.perform key call).2 ≠ .ok (.changed true)) :
    (r.perform key call).1.store.tables = r.store.tables := by
  have haccess := (r.access_atMostLoaded key).store.tables
  rcases call_cases call with ⟨edit, hedit⟩ | ⟨look, hlook⟩ | rfl
  · have hanswer := h.resolve_left (by simp [hedit])
    rw [perform_edit hedit] at hanswer ⊢
    rcases change_cases (Call.sound_edit? hedit) r key with
      ⟨e, store, hstore, hchange⟩ | ⟨l, -, ⟨-, hchange⟩ | ⟨-, -, hchange⟩⟩
    · rw [hchange]
      exact hstore.tables.trans haccess
    · rw [hchange]
      exact haccess
    · rw [hchange] at hanswer
      exact absurd rfl hanswer
  · rw [perform_look hlook]
    exact haccess
  · rfl

/-- A change that says so has put the timeline that it makes in use, and written it over the bag of
its table. -/
theorem changed_of_edit (hr : r.WellKept) (hedit : call.edit? = some edit)
    (h : (r.perform key call).2 = .ok (.changed true)) :
    ∃ t u l, r.Makes key call t u ∧ (r.perform key call).1.cached? key = some l ∧ l.timeline = u ∧
      ∀ name, (r.perform key call).1.store.table name = if name = key.table then
        (r.store.table key.table).upsert (key.toTable u.strategy u.encode)
      else r.store.table name := by
  have hsound := Call.sound_edit? hedit
  have hsame := (r.access_atMostLoaded key).store
  rw [perform_edit hedit] at h ⊢
  rcases change_cases hsound r key with
    ⟨e, store, -, hchange⟩ | ⟨l, hl, ⟨-, hchange⟩ | ⟨htrue, -, hchange⟩⟩
  · rw [hchange] at h
    cases h
  · rw [hchange] at h
    cases h
  · have hcached := cached?_access hl
    have hukey : (edit l.timeline).1.key = key :=
      (hsound.key _).trans ((hr.access key).keyed key l hcached)
    refine ⟨l.timeline, (edit l.timeline).1, ⟨l.handle, (edit l.timeline).1⟩,
      ⟨edit, l, hedit, hl, rfl, Prod.ext rfl htrue⟩, ?_, rfl, ?_⟩
    · rw [hchange]
      exact cached?_committed_self hcached _
    · intro name
      rw [hchange]
      change ((r.access key).1.store.written _).table name = _
      rw [Store.table_written, hukey, hsame.table, hsame.table]

end Contents

/-- A change of a timeline in use that comes to nothing does not ask for the store. -/
theorem change_idle (hl : r.cached? key = some l) (hs : Timeline.Sound edit)
    (hidle : (edit l.timeline).2 = .ok false) : r.change key edit = (r, .ok false) := by
  have haccess := access_of_cached hl
  have hanswer := change_answer r key edit
  rw [haccess] at hanswer
  simp only [Except.bind, hidle, persistEdited] at hanswer
  rcases change_cases hs r key with
    ⟨e, store, -, hchange⟩ | ⟨m, -, ⟨-, hchange⟩ | ⟨-, -, hchange⟩⟩
  · rw [hchange] at hanswer
    cases hanswer
  · rw [hchange, haccess]
  · rw [hchange] at hanswer
    cases hanswer

/-- How often a call asks the store, and what it leaves there. -/
structure AsksAsNeeded (r : Registry) (key : Key) (call : Call) : Prop where
  /-- The store is read once if a timeline is needed that is not in use, and never otherwise. -/
  reads : (r.perform key call).1.store.reads =
    r.store.reads + if call ≠ .evict ∧ r.cached? key = none then 1 else 0
  /-- It is written once for a change that has come about in memory, -/
  writes : ∀ t u, r.Makes key call t u →
    (r.perform key call).1.store.writes = r.store.writes + 1
  /-- and never otherwise. -/
  spares : (∀ t u, ¬ r.Makes key call t u) →
    (r.perform key call).1.store.writes = r.store.writes
  /-- A change that says so leaves the properties of the new timeline over what its table had. -/
  changes : ∀ edit, call.edit? = some edit → (r.perform key call).2 = .ok (.changed true) →
    ∃ t u l, r.Makes key call t u ∧ (r.perform key call).1.cached? key = some l ∧ l.timeline = u ∧
      (∀ name, ((r.perform key call).1.store.table key.table).get? name =
        ((key.toTable u.strategy u.encode).get? name).or ((r.store.table key.table).get? name)) ∧
      ∀ other, other ≠ key.table → (r.perform key call).1.store.table other = r.store.table other
  /-- Whatever else is called or answered, all tables stay as they are. -/
  keeps : call.edit? = none ∨ (r.perform key call).2 ≠ .ok (.changed true) →
    (r.perform key call).1.store.tables = r.store.tables

theorem asksAsNeeded (hr : r.WellKept) (key : Key) (call : Call) : r.AsksAsNeeded key call where
  reads := reads_call r key call
  writes _ _ := writes_of_makes
  spares := writes_of_not_makes
  changes edit hedit hanswer := by
    obtain ⟨t, u, l, hmakes, hcached, hu, htable⟩ := changed_of_edit hr hedit hanswer
    refine ⟨t, u, l, hmakes, hcached, hu, ?_, ?_⟩
    · intro name
      rw [htable, if_pos rfl, OrderedMap.get?_upsert]
    · intro other hother
      rw [htable, if_neg hother]
  keeps := tables_perform

/-- With the timeline in use, reads and changes that come to nothing succeed whatever the store does. -/
structure NeedsNoStore (r : Registry) (key : Key) (l : Loaded) : Prop where
  read : r.perform key .read = (r, .ok (.timeline l.timeline))
  list : r.perform key .list = (r, .ok (.partitions l.timeline.toList))
  listWithin : ∀ range, r.perform key (.listWithin range) =
    (r, ((l.timeline.toListWithin range).map .partitions).mapError .timeline)
  has : ∀ qs, r.perform key (.has qs) = (r, .ok (.flags (qs.map l.timeline.has)))
  idle : ∀ call edit, call.edit? = some edit → (edit l.timeline).2 = .ok false →
    r.perform key call = (r, .ok (.changed false))

theorem needsNoStore (hl : r.cached? key = some l) : r.NeedsNoStore key l := by
  have hlook : ∀ call look, call.look? = some look → r.perform key call = (r, look l) := by
    intro call look hlook
    rw [perform_look hlook, access_of_cached hl]
    rfl
  refine ⟨hlook .read _ rfl, hlook .list _ rfl, fun range => hlook (.listWithin range) _ rfl,
    fun qs => hlook (.has qs) _ rfl, ?_⟩
  intro call edit hedit hidle
  rw [perform_edit hedit, change_idle hl (Call.sound_edit? hedit) hidle]
  rfl

/-- After any history of calls, failures of the store and writes of others, a timeline is in use exactly
if a call needed it and had it and no event evicted it since. What a call asks of the store and leaves
there follows from that; for a timeline in use, whatever the store has become by now, nothing is needed
of it but for changes that come about. -/
theorem store_asked_as_needed (store : Store) (config : Config) (history : List Event) :
    let r := (ofStore store config).afterAll history
    (∀ key, (r.cached? key).isSome ↔
      ∃ before d later, history = before ++ d :: later ∧ d.Needs key ∧
        (∃ l, (((ofStore store config).afterAll before).access key).2 = .ok l) ∧
        ∀ d ∈ later, ¬ d.Evicts key) ∧
      (∀ key call, r.AsksAsNeeded key call) ∧
      ∀ key l, r.cached? key = some l →
        ∀ now : Store, ({ r with store := now } : Registry).NeedsNoStore key l := by
  intro r
  refine ⟨?_, asksAsNeeded ((wellKept_ofStore store config).afterAll history), ?_⟩
  · intro key
    have hnone : ((ofStore store config).cached? key).isSome = false := rfl
    simp only [r, isSome_cached?_afterAll, hnone, Bool.false_eq_true, false_and, false_or]
  · intro key l hl now
    exact needsNoStore (r := { r with store := now }) hl

/-- A day is added to a new timeline; adding it again and reading it work while the store is down. -/
theorem store_asked_as_needed_of_repeated_add :
    let key : Key := ⟨"events", .daily, "dt"⟩
    let day : Partition := ⟨.daily, 3, by decide, by decide⟩
    let r := (ofStore .empty .standard).afterAll [.call key (.add day), .failReads true, .failWrites true]
    r.store.reads = 1 ∧ r.store.writes = 1 ∧
      r.perform key (.add day) = (r, .ok (.changed false)) ∧ ∃ l, r.cached? key = some l ∧
        r.perform key .read = (r, .ok (.timeline l.timeline)) ∧
        ∀ name, (r.store.table key.table).get? name =
          (key.toTable l.timeline.strategy l.timeline.encode).get? name := by
  intro key day r
  let t := Timeline.empty key .storeAll
  have hmakes : (ofStore .empty .standard).Makes key (.add day) t (t.add day).1 :=
    ⟨_, ⟨0, t⟩, rfl, rfl, rfl, rfl⟩
  have hadd := (store_asked_as_needed .empty .standard []).2.1 key (.add day)
  have hwrites := hadd.writes t (t.add day).1 hmakes
  obtain ⟨_, _, l, -, hl, rfl, htable, -⟩ := hadd.changes _ rfl rfl
  obtain ⟨-, -, hdown⟩ := store_asked_as_needed .empty .standard
    [.call key (.add day), .failReads true, .failWrites true]
  have hneeds := hdown key l hl r.store
  have hidle : (l.timeline.add day).2 = .ok false := by
    cases hl
    rfl
  refine ⟨hadd.reads, hwrites, hneeds.idle _ _ rfl hidle, l, hl, hneeds.read, ?_⟩
  intro name
  exact (htable name).trans (Option.or_none)

/-- An eviction of a timeline that is not in use does not read it first. -/
theorem uncached_evict_reads_nothing :
    ¬ ∀ (store : Store) (config : Config) (history : List Event) (key : Key) (call : Call),
      let r := (ofStore store config).afterAll history
      (r.perform key call).1.store.reads =
        r.store.reads + if r.cached? key = none then 1 else 0 := by
  intro h
  have hreads := h .empty .standard [] ⟨"events", .daily, "dt"⟩ .evict
  cases hreads

end PartitionLedger.Registry

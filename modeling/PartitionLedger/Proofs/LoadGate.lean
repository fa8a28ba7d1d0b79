import PartitionLedger.Proofs.OtherKeys
import PartitionLedger.Proofs.StoredTimeline

/-!
Only consistent timelines get into a registry, whatever somebody else writes to its store, and changes
keep them so, those on a handle included. What does not load leaves no trace but the count of the read.
-/
namespace PartitionLedger

/-- Whether an event is a call that needs the timeline of a key. -/
def Event.Needs (key : Key) : Event → Prop
  | .call k asked => k = key ∧ asked ≠ .evict
  | _ => False

/-- Whether an event puts the timeline of a key out of use. -/
def Event.Evicts (key : Key) : Event → Prop
  | .call k asked => k = key ∧ asked = .evict
  | .restart _ => True
  | _ => False

namespace Registry
variable {r s : Registry} {key : Key} {call : Call} {config : Config} {table bag : Bag}
  {t : Timeline} {e : RegistryError}

section Load

/-- Why properties stand for no timeline that may be used. -/
inductive Unfit (config : Config) (key : Key) (bag : Bag) : RegistryError → Prop where
  | unknownStrategy {e : Strategy.Unknown} (h : strategyOf config key bag = .error e) :
    Unfit config key bag (.timeline (.corrupt key ⟨.storageClass, .unknownStrategy e⟩))
  | undecodable {s : Strategy} {corruption : Corruption} (hs : strategyOf config key bag = .ok s)
    (h : Contents.decode key.period bag s = .error corruption) :
    Unfit config key bag (.timeline (.corrupt key corruption))
  | inconsistent {s : Strategy} {contents : Contents key.period}
    (hs : strategyOf config key bag = .ok s) (h : Contents.decode key.period bag s = .ok contents)
    (hnot : ¬ contents.Consistent) : Unfit config key bag (.inconsistent key)

theorem load_empty (key : Key) (s : Strategy) (bag : Bag) :
    (Timeline.empty key s).load bag = match Contents.decode key.period bag s with
      | .ok contents => (⟨key, contents⟩, .ok (decide contents.Consistent))
      | .error e => (Timeline.empty key s, .error (.corrupt key e)) := by
  have hs : Contents.decode (Timeline.empty key s).key.period bag (Timeline.empty key s).strategy =
      Contents.decode key.period bag s := by
    rw [Timeline.strategy_empty]
    rfl
  cases hdecode : Contents.decode key.period bag s with
  | error e =>
    simp only [Timeline.load, hs.trans hdecode]
    rw [Timeline.strategy_empty]
    rfl
  | ok contents =>
    simp only [Timeline.load, hs.trans hdecode]
    rfl

theorem decode_empty (p : Period) (s : Strategy) : Contents.decode p ∅ s = .ok (.empty p s) := by
  cases s <;> rfl

/-- Properties are loaded by the strategy they were stored by, or found unfit. -/
theorem timelineOf_eq (config : Config) (key : Key) (table : Bag) :
    timelineOf config key table = match strategyOf config key (key.ofTable table) with
      | .error e => .error (.timeline (.corrupt key ⟨.storageClass, .unknownStrategy e⟩))
      | .ok s =>
        match Contents.decode key.period (key.ofTable table) s with
        | .error e => .error (.timeline (.corrupt key e))
        | .ok contents =>
          if contents.Consistent then .ok ⟨key, contents⟩ else .error (.inconsistent key) := by
  generalize hbag : key.ofTable table = bag
  by_cases hempty : bag.isEmpty
  · -- no properties are those of an empty timeline
    obtain rfl : bag = ∅ := by
      obtain ⟨_ | ⟨e, rest⟩, ascending⟩ := bag
      · rfl
      · cases hempty
    have hconsistent : (Contents.empty key.period (config.strategyFor key.period)).Consistent :=
      Timeline.consistent_empty key _
    simp only [timelineOf, hbag, if_pos hempty, strategyOf, OrderedMap.get?_empty, decode_empty,
      if_pos hconsistent]
    rfl
  · simp only [timelineOf, hbag, if_neg hempty]
    cases hs : strategyOf config key bag with
    | error e => rfl
    | ok s =>
      simp only [load_empty]
      cases hdecode : Contents.decode key.period bag s with
      | error e => rfl
      | ok contents => by_cases h : contents.Consistent <;> simp [h]

theorem timelineOf_eq_error :
    timelineOf config key table = .error e ↔ Unfit config key (key.ofTable table) e := by
  rw [timelineOf_eq]
  constructor
  · intro h
    cases hs : strategyOf config key (key.ofTable table) with
    | error unknown =>
      simp only [hs] at h
      cases h
      exact .unknownStrategy hs
    | ok s =>
      cases hdecode : Contents.decode key.period (key.ofTable table) s with
      | error corruption =>
        simp only [hs, hdecode] at h
        cases h
        exact .undecodable hs hdecode
      | ok contents =>
        simp only [hs, hdecode] at h
        split at h
        · cases h
        · rename_i hnot
          cases h
          exact .inconsistent hs hdecode hnot
  · intro h
    cases h with
    | unknownStrategy h => simp only [h]
    | undecodable hs h => simp only [hs, h]
    | inconsistent hs h hnot => simp only [hs, h, if_neg hnot]

end Load

section Access

/-- Why the store gives no timeline for a key. -/
inductive Refuses (r : Registry) (key : Key) : RegistryError → Prop where
  | unreadable (h : r.store.failReads = true) :
    Refuses r key (.load key.table (.readsFailing key.table))
  | unfit {e : RegistryError} (hreads : r.store.failReads = false)
    (h : Unfit r.config key (key.ofTable (r.store.table key.table)) e) : Refuses r key e

theorem stored_eq_error : r.stored key = .error e ↔ r.Refuses key e := by
  cases hfail : r.store.failReads with
  | true =>
    rw [stored, if_pos hfail]
    constructor
    · intro h
      cases h
      exact .unreadable hfail
    · rintro (h | ⟨h, -⟩)
      · rfl
      · simp [hfail] at h
  | false =>
    rw [stored, if_neg (by simp [hfail]), timelineOf_eq_error]
    constructor
    · exact .unfit hfail
    · rintro (h | ⟨-, h⟩)
      · simp [hfail] at h
      · exact h

theorem access_of_refused (h : r.cached? key = none) (hrefuses : r.Refuses key e) :
    r.access key = (r.fetched, .error e) := by
  have hstored := stored_eq_error.mpr hrefuses
  rcases access_of_uncached h with ⟨d, hd, haccess⟩ | ⟨t, ht, -⟩
  · rw [hstored] at hd
    cases hd
    exact haccess
  · rw [hstored] at ht
    cases ht

/-- An access fails exactly if the timeline is not in use and the store gives none. -/
theorem access_eq_error :
    (r.access key).2 = .error e ↔ r.cached? key = none ∧ r.Refuses key e := by
  constructor
  · intro h
    cases hc : r.cached? key with
    | some l =>
      rw [access_of_cached hc] at h
      cases h
    | none =>
      rcases access_of_uncached hc with ⟨d, hd, haccess⟩ | ⟨t, -, haccess⟩
      · rw [haccess] at h
        cases h
        exact ⟨rfl, stored_eq_error.mp hd⟩
      · rw [haccess] at h
        cases h
  · rintro ⟨hc, hrefuses⟩
    rw [access_of_refused hc hrefuses]

theorem reads_access (h : r.cached? key = none) :
    (r.access key).1.store.reads = r.store.reads + 1 := by
  rcases access_of_uncached h with ⟨e, -, haccess⟩ | ⟨t, -, haccess⟩
  · rw [haccess]
    rfl
  · rw [haccess]
    rfl

end Access

section Call

/-- A call that needs a timeline fails as the access to it does. -/
theorem perform_of_refused (hcall : call ≠ .evict) (h : r.access key = (s, .error e)) :
    r.perform key call = (s, .error e) := by
  rcases call_cases call with ⟨edit, hedit⟩ | ⟨look, hlook⟩ | rfl
  · simp only [perform_edit hedit, change, h]
    rfl
  · simp only [perform_look hlook, h]
    rfl
  · exact absurd rfl hcall

theorem reads_persistEdited (store : Store) (t : Timeline) (outcome : Except TimelineError Bool) :
    (persistEdited store t outcome).1.reads = store.reads := by
  obtain ⟨tables, failReads, failWrites, reads, writes⟩ := store
  rcases outcome with e | _ | _
  · rfl
  · rfl
  · cases failWrites <;> rfl

/-- A call that needs a timeline reads the store as often as the access to it does. -/
theorem reads_perform (r : Registry) (key : Key) (hcall : call ≠ .evict) :
    (r.perform key call).1.store.reads = (r.access key).1.store.reads := by
  rcases call_cases call with ⟨edit, hedit⟩ | ⟨look, hlook⟩ | rfl
  · rw [perform_edit hedit]
    change (r.change key edit).1.store.reads = _
    rw [store_change]
    split
    · rfl
    · exact reads_persistEdited _ _ _
  · rw [perform_look hlook]
  · exact absurd rfl hcall

end Call

section Uncached

/-- A call that needs a timeline leaves it in use exactly if it has it. -/
theorem isSome_cached?_perform (hcall : call ≠ .evict) :
    ((r.perform key call).1.cached? key).isSome ↔ ∃ l, (r.access key).2 = .ok l := by
  rw [← isOk_iff, ← isSome_cached?_access]
  rcases call_cases call with ⟨edit, hedit⟩ | ⟨look, hlook⟩ | rfl
  · rw [perform_edit hedit, ← isSome_cached?_change (Call.sound_edit? hedit)]
    rfl
  · rw [perform_look hlook]
  · exact absurd rfl hcall

theorem isSome_cached?_addHeld (r : Registry) (handle : Nat) (q : Partition) :
    ((r.addHeld handle q).1.cached? key).isSome = (r.cached? key).isSome := by
  cases hheld : r.held? handle with
  | none => simp only [addHeld, hheld]
  | some t =>
    simp only [addHeld, hheld, cached?_setHeld hheld, Option.isSome_map]

/-- A timeline gets in use by a call that needs it and has it, and out of use by an eviction. -/
theorem isSome_cached?_after (r : Registry) (d : Event) : ((r.after d).cached? key).isSome ↔
    d.Needs key ∧ (∃ l, (r.access key).2 = .ok l) ∨ (r.cached? key).isSome ∧ ¬ d.Evicts key := by
  cases d with
  | call k asked =>
    by_cases hk : k = key
    · subst hk
      by_cases hevict : asked = .evict
      · subst hevict
        simp [Event.Needs, Event.Evicts, after, perform, Prod.map, cached?_evict_self]
      · simp only [Event.Needs, Event.Evicts, after, isSome_cached?_perform hevict, hevict, ne_eq,
          not_false_eq_true, and_self, true_and, and_false, and_true, iff_self_or]
        intro hsome
        obtain ⟨l, hl⟩ := Option.isSome_iff_exists.mp hsome
        exact ⟨l, by rw [access_of_cached hl]⟩
    · simp [Event.Needs, Event.Evicts, after, hk, cached?_perform_other asked (Ne.symm hk)]
  | addHeld handle q => simp [Event.Needs, Event.Evicts, after, isSome_cached?_addHeld]
  | restart config => simp [Event.Needs, Event.Evicts, after, restart, cached?]
  | failReads on => simp [Event.Needs, Event.Evicts, after, cached?, held?]
  | failWrites on => simp [Event.Needs, Event.Evicts, after, cached?, held?]
  | setTable name bag => simp [Event.Needs, Event.Evicts, after, cached?, held?]
  | upsert name bag =>
    simp only [Event.Needs, Event.Evicts, after, false_and, false_or, not_false_eq_true, and_true]
    split <;> rfl

/-- A timeline gets in use only by a call that needs it. -/
theorem cached?_after (d : Event) (hd : ¬ d.Needs key) (h : r.cached? key = none) :
    (r.after d).cached? key = none := by
  rw [← Option.not_isSome_iff_eq_none, isSome_cached?_after]
  simp [hd, h]

theorem cached?_afterAll {later : List Event} (hlater : ∀ d ∈ later, ¬ d.Needs key)
    (h : r.cached? key = none) : (r.afterAll later).cached? key = none := by
  induction later generalizing r with
  | nil => exact h
  | cons d rest ih =>
    have hfirst := cached?_after d (hlater d List.mem_cons_self) h
    exact ih (fun d' hd' => hlater d' (List.mem_cons_of_mem d hd')) hfirst

end Uncached

/-- Every timeline that a handle can lead to is consistent, and a timeline in use is of its key. -/
structure WellKept (r : Registry) : Prop where
  consistent : ∀ handle t, r.held? handle = some t → t.Consistent
  keyed : ∀ key l, r.cached? key = some l → l.timeline.key = key

namespace WellKept
variable (h : r.WellKept)
include h

theorem withStore (store : Store) : ({ r with store } : Registry).WellKept := ⟨h.consistent, h.keyed⟩

theorem opened (hkey : t.key = key) (ht : t.Consistent) : (r.opened key t).WellKept := by
  constructor
  · intro handle u hu
    rcases List.mem_append.mp (List.mem_of_getElem? hu) with hmem | hmem
    · obtain ⟨n, hn⟩ := List.mem_iff_getElem?.mp hmem
      exact h.consistent n u hn
    · exact List.mem_singleton.mp hmem ▸ ht
  · intro k l hl
    by_cases hk : k = key
    · subst hk
      rw [cached?_opened_self] at hl
      cases hl
      exact hkey
    · rw [cached?_opened_other hk] at hl
      exact h.keyed k l hl

/-- A timeline may be put in place of one of the same key. -/
theorem setHeld {handle : Nat} {u : Timeline} (hheld : r.held? handle = some u) (hkey : t.key = u.key)
    (ht : t.Consistent) : (r.setHeld handle t).WellKept := by
  constructor
  · intro n v hv
    rcases List.mem_or_eq_of_mem_set (List.mem_of_getElem? hv) with hmem | rfl
    · obtain ⟨m, hm⟩ := List.mem_iff_getElem?.mp hmem
      exact h.consistent m v hm
    · exact ht
  · intro k l hl
    rw [cached?_setHeld hheld] at hl
    obtain ⟨m, hm, rfl⟩ := Option.map_eq_some_iff.mp hl
    have hmkey := h.keyed k m hm
    split
    · rename_i he
      have hsame := held?_of_cached? hm
      rw [he, hheld] at hsame
      cases hsame
      exact hkey.trans hmkey
    · exact hmkey

theorem access (key : Key) : (r.access key).1.WellKept := by
  rcases r.access_cases key with
    ⟨l, -, haccess⟩ | ⟨-, store, -, ⟨e, haccess, -⟩ | ⟨t, haccess, -, ht⟩⟩
  · rw [haccess]
    exact h
  · rw [haccess]
    exact h.withStore store
  · rw [haccess]
    obtain ⟨hkey, hconsistent⟩ := of_timelineOf ht
    exact (h.withStore store).opened hkey hconsistent

theorem change {edit : Timeline → Timeline × Except TimelineError Bool} (hs : Timeline.Sound edit)
    (key : Key) : (r.change key edit).1.WellKept := by
  have haccess := h.access key
  rcases change_cases hs r key with
    ⟨_, store, -, hchange⟩ | ⟨l, hl, ⟨-, hchange⟩ | ⟨-, -, hchange⟩⟩
  · rw [hchange]
    exact haccess.withStore store
  · rw [hchange]
    exact haccess
  · rw [hchange]
    have hheld := held?_of_cached? (cached?_access hl)
    have hedited := hs.consistent _ (haccess.consistent _ _ hheld)
    exact (haccess.withStore (Store.written _ _)).setHeld hheld (hs.key _) hedited

theorem perform (key : Key) (call : Call) : (r.perform key call).1.WellKept := by
  rcases call_cases call with ⟨edit, hedit⟩ | ⟨look, hlook⟩ | rfl
  · rw [perform_edit hedit]
    exact h.change (Call.sound_edit? hedit) key
  · rw [perform_look hlook]
    exact h.access key
  · refine ⟨h.consistent, ?_⟩
    intro k l hl
    change (r.evict key).1.cached? k = some l at hl
    by_cases hk : k = key
    · subst hk
      rw [cached?_evict_self] at hl
      cases hl
    · rw [cached?_evict_other hk] at hl
      exact h.keyed k l hl

theorem after (d : Event) : (r.after d).WellKept := by
  cases d with
  | call key call => exact h.perform key call
  | addHeld handle q =>
    cases hheld : r.held? handle with
    | none => simpa only [Registry.after, addHeld, hheld] using h
    | some t =>
      have hadded := (Timeline.sound_add q).consistent t (h.consistent handle t hheld)
      simpa only [Registry.after, addHeld, hheld] using h.setHeld hheld (t.key_add q) hadded
  | restart config =>
    refine ⟨h.consistent, ?_⟩
    intro key l hl
    cases hl
  | failReads on => exact h.withStore _
  | failWrites on => exact h.withStore _
  | setTable name bag => exact h.withStore _
  | upsert name bag =>
    simp only [Registry.after]
    split
    · exact h.withStore _
    · exact h

theorem afterAll (history : List Event) : (r.afterAll history).WellKept := by
  induction history generalizing r with
  | nil => exact h
  | cons d rest ih => exact ih (h.after d)

end WellKept

theorem wellKept_ofStore (store : Store) (config : Config) : (ofStore store config).WellKept := by
  constructor
  · intro handle t ht
    simp [ofStore, held?] at ht
  · intro key l hl
    cases hl

/-- A handle that is given leads to the timeline in use. -/
theorem hold_eq_ok {n : Nat} (h : (r.perform key .hold).2 = .ok (.handle n)) :
    ∃ t, (r.perform key .hold).1.cached? key = some ⟨n, t⟩ := by
  obtain ⟨l, hl, hn⟩ := map_eq_ok.mp h
  cases hn
  exact ⟨l.timeline, cached?_access hl⟩

/-- A call that is refused changes nothing but the count of reads. However the store is changed then,
the next call that needs the timeline reads it again. -/
theorem refused_is_read_again (hnone : r.cached? key = none) (hrefuses : r.Refuses key e)
    (hcall : call ≠ .evict) : r.perform key call = (r.fetched, .error e) ∧
      ∀ later next, (∀ d ∈ later, ¬ d.Needs key) → next ≠ .evict →
        let s := (r.perform key call).1.afterAll later
        (s.perform key next).1.store.reads = s.store.reads + 1 := by
  have hperform := perform_of_refused hcall (access_of_refused hnone hrefuses)
  refine ⟨hperform, ?_⟩
  intro later next hlater hnext s
  have hs : s.cached? key = none := by
    apply cached?_afterAll hlater
    rw [hperform]
    exact hnone
  rw [reads_perform s key hnext, reads_access hs]

/-- After any history, in which somebody else may write anything to the store and change timelines by
their handles, every timeline in use and every timeline that a handle leads to is consistent, and so is
each one that is handed out next. A key that is not in use is refused exactly if its properties cannot
be read, cannot be decoded or are inconsistent; then nothing changes, and they are read again the next
time. -/
theorem only_consistent_timelines (store : Store) (config : Config) (history : List Event) :
    let r := (ofStore store config).afterAll history
    (∀ key l, r.cached? key = some l → l.timeline.Consistent) ∧
      (∀ handle t, r.held? handle = some t → t.Consistent) ∧
      (∀ key n, (r.perform key .hold).2 = .ok (.handle n) →
        ∃ t, (r.perform key .hold).1.held? n = some t ∧ t.key = key ∧ t.Consistent) ∧
      ∀ key, r.cached? key = none → ∀ e,
        ((r.perform key .hold).2 = .error e ↔ r.Refuses key e) ∧
          (r.Refuses key e → ∀ call, call ≠ .evict → r.perform key call = (r.fetched, .error e) ∧
            ∀ later next, (∀ d ∈ later, ¬ d.Needs key) → next ≠ .evict →
              let s := (r.perform key call).1.afterAll later
              (s.perform key next).1.store.reads = s.store.reads + 1) := by
  intro r
  have hr : r.WellKept := (wellKept_ofStore store config).afterAll history
  refine ⟨fun key l hl => hr.consistent _ _ (held?_of_cached? hl), hr.consistent, ?_, ?_⟩
  · intro key n hn
    obtain ⟨t, ht⟩ := hold_eq_ok hn
    have hheld := held?_of_cached? ht
    have hafter := hr.perform key .hold
    exact ⟨t, hheld, hafter.keyed key _ ht, hafter.consistent n t hheld⟩
  · intro key hnone e
    constructor
    · change (r.access key).2.map _ = _ ↔ _
      rw [map_eq_error, access_eq_error]
      exact and_iff_right hnone
    · intro hrefuses call hcall
      exact refused_is_read_again hnone hrefuses hcall

/-- A hole beyond the ends is refused; when the table has been put right, it is read a second time. -/
theorem only_consistent_timelines_of_stray_hole :
    let key : Key := ⟨"events", .daily, "dt"⟩
    let ends : List (String × String) :=
      [(key.scope ++ "first", "1970-01-02"), (key.scope ++ "latest", "1970-01-04")]
    let stray : Bag := OrderedMap.ofList (ends ++ [(key.scope ++ "holes", "1970-01-09")])
    let r := (ofStore .empty (.ofStrategy .endsAndHoles)).afterAll [.setTable "events" stray]
    let s := (r.perform key .read).1.afterAll [.setTable "events" (OrderedMap.ofList ends)]
    r.perform key .read = (r.fetched, .error (.inconsistent key)) ∧
      (s.perform key .list).1.store.reads = s.store.reads + 1 := by
  intro key ends stray r s
  let ninth : Cell .daily := ⟨8, by decide, by decide⟩
  let contents : Contents .daily :=
    .holed ⟨some ⟨⟨1, by decide, by decide⟩, ⟨3, by decide, by decide⟩⟩, ⟨[ninth], by simp⟩⟩
  let bag : Bag := OrderedMap.ofList
    [("first", "1970-01-02"), ("holes", "1970-01-09"), ("latest", "1970-01-04")]
  have hbag : key.ofTable stray = bag := by decide +kernel
  have hs : strategyOf (.ofStrategy .endsAndHoles) key bag = .ok .endsAndHoles := rfl
  have hdecode : Contents.decode .daily bag .endsAndHoles = .ok contents :=
    Contents.decode_eq_ok.mpr ⟨rfl, by decide +kernel⟩
  have hnot : ¬ contents.Consistent := by decide
  have htable : r.store.table key.table = stray := rfl
  have hrefuses : r.Refuses key (.inconsistent key) := by
    refine .unfit rfl ?_
    rw [htable, hbag]
    exact .inconsistent hs hdecode hnot
  have hlater : ∀ d ∈ [Event.setTable "events" (OrderedMap.ofList ends)], ¬ d.Needs key := by
    simp [Event.Needs]
  have hnone : r.cached? key = none := rfl
  have hgate := only_consistent_timelines .empty (.ofStrategy .endsAndHoles) [.setTable "events" stray]
  have hr : (ofStore .empty (.ofStrategy .endsAndHoles)).afterAll [.setTable "events" stray] = r := rfl
  rw [hr] at hgate
  -- what the registry is made of does not matter any more
  clear_value r
  obtain ⟨-, -, -, hrefused⟩ := hgate
  obtain ⟨hread, hagain⟩ := (hrefused key hnone _).2 hrefuses .read (by decide)
  exact ⟨hread, hagain [.setTable "events" (OrderedMap.ofList ends)] .list hlater (by decide)⟩

end Registry
end PartitionLedger

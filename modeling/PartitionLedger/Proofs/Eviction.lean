import Mathlib.Logic.IsEmpty.Defs
import PartitionLedger.Proofs.Coherence

/-!
An eviction is not seen by what is asked later, while reads work: the timeline is loaded again as it
was. Only an eviction of the same key can tell, as its answer is whether the timeline was in use.
-/
namespace PartitionLedger

/-- What decides whether a timeline of the key is in use, whether or not there was one before. -/
def Event.Touches (key : Key) : Event → Prop
  | .call k _ => k = key
  | .restart _ => True
  | _ => False

namespace Store
variable {s s' : Store}

theorem Same.written (h : Same s s') (t : Timeline) : Same (s.written t) (s'.written t) := by
  refine ⟨?_, h.failReads, h.failWrites⟩
  simp only [Store.written, setTable, h.table, h.tables]

end Store

namespace Registry
variable {r s : Registry} {key k : Key} {call : Call} {agree : Key → Prop}
  {edit : Timeline → Timeline × Except TimelineError Bool}

/-- An answer with the timeline in place of the handle that leads to it. -/
def reveal (r : Registry) : Answer → Answer
  | .handle n => ((r.held? n).map Answer.timeline).getD (.handle n)
  | answer => answer

/-- What a call is answered, for whoever sees the timeline behind a handle and not its number. -/
def answer (r : Registry) (key : Key) (call : Call) : Except RegistryError Answer :=
  (r.perform key call).2.map (r.perform key call).1.reveal

/-- Reads work whenever a call is made. -/
def ReadsWork (r : Registry) : List Event → Prop
  | [] => True
  | e :: rest => (∀ key call, e = .call key call → r.store.failReads = false) ∧
    (r.after e).ReadsWork rest

/-- Coherent registries over stores that hold the same. The keys that agree have a timeline in use in
both or in neither. -/
structure Alike (agree : Key → Prop) (r s : Registry) : Prop where
  store : s.store.Same r.store
  config : s.config = r.config
  left : r.Coherent
  right : s.Coherent
  inUse : ∀ key, agree key → (s.cached? key).isSome = (r.cached? key).isSome

theorem alike_evict (h : r.Coherent) (k : Key) : Alike (· ≠ k) r (r.evict k).1 := by
  refine ⟨Store.Same.refl _, rfl, h, coherent_evict h k, ?_⟩
  intro key hne
  rw [cached?_evict_other hne]

theorem persistEdited_congr {s s' : Store} (h : s.failWrites = s'.failWrites) (t : Timeline)
    (outcome : Except TimelineError Bool) :
    (persistEdited s t outcome).2 = (persistEdited s' t outcome).2 := by
  obtain ⟨tables, failReads, failWrites, reads, writes⟩ := s
  obtain ⟨tables', failReads', failWrites', reads', writes'⟩ := s'
  cases h
  rcases outcome with e | _ | _
  · rfl
  · rfl
  · cases failWrites <;> rfl

/-- The store after a change that is written, and after any other. -/
theorem change_store (hs : Timeline.Sound edit) (r : Registry) (key : Key) :
    (r.change key edit).1.store.Same
      (match (r.change key edit).2, (r.access key).2 with
        | .ok true, .ok l => (r.access key).1.store.written (edit l.timeline).1
        | _, _ => (r.access key).1.store) := by
  rcases change_cases hs r key with
    ⟨_, store, hstore, hchange⟩ | ⟨l, hl, ⟨-, hchange⟩ | ⟨-, -, hchange⟩⟩
  · rw [hchange]
    exact hstore
  · rw [hchange]
    exact Store.Same.refl _
  · rw [hchange, hl]
    exact Store.Same.refl _

/-- A look at one timeline through two handles is answered alike. -/
theorem look_congr {look : Loaded → Except RegistryError Answer} (hlook : call.look? = some look)
    {l m : Loaded} (hl : r.held? l.handle = some l.timeline) (hm : s.held? m.handle = some m.timeline)
    (h : m.timeline = l.timeline) : (look m).map s.reveal = (look l).map r.reveal := by
  obtain ⟨handle, t⟩ := l
  obtain ⟨handle', u⟩ := m
  cases h
  cases call with
  | read =>
    cases hlook
    rfl
  | list =>
    cases hlook
    rfl
  | listWithin range =>
    cases hlook
    dsimp only
    cases t.toListWithin range <;> rfl
  | has qs =>
    cases hlook
    rfl
  | hold =>
    cases hlook
    simp only [Except.map, reveal, hl, hm]
    rfl
  | add q => cases hlook
  | addAll qs => cases hlook
  | addRange range => cases hlook
  | drop q => cases hlook
  | evict => cases hlook

section Congr
variable (haccess : (s.access key).2.map Loaded.timeline = (r.access key).2.map Loaded.timeline)
  (hwrites : (s.access key).1.store.failWrites = (r.access key).1.store.failWrites)
include haccess hwrites

/-- What a change answers depends on the timeline that it gets and on whether writes work. -/
theorem change_answer_congr (edit : Timeline → Timeline × Except TimelineError Bool) :
    (s.change key edit).2 = (r.change key edit).2 := by
  rw [change_answer, change_answer]
  rcases map_eq_map haccess with ⟨e, hm, hl⟩ | ⟨m, l, hm, hl, htimeline⟩
  · rw [hl, hm]
    rfl
  · rw [hl, hm]
    simp only [Except.bind, htimeline]
    exact persistEdited_congr hwrites _ _

/-- An eviction answers whether the timeline was in use, any other call depends on the timeline that it
gets. -/
theorem answer_congr
    (hc : call ≠ .evict ∨ (s.cached? key).isSome = (r.cached? key).isSome) :
    s.answer key call = r.answer key call := by
  rcases call_cases call with ⟨edit, hedit⟩ | ⟨look, hlook⟩ | rfl
  · simp only [Registry.answer, perform_edit hedit, Prod.map,
      change_answer_congr haccess hwrites]
    cases (r.change key edit).2 <;> rfl
  · simp only [Registry.answer, perform_look hlook]
    rcases map_eq_map haccess with ⟨e, hm, hl⟩ | ⟨m, l, hm, hl, htimeline⟩
    · rw [hl, hm]
      rfl
    · have hheld := held?_of_cached? (cached?_access hl)
      have hheld' := held?_of_cached? (cached?_access hm)
      rw [hl, hm]
      exact look_congr hlook hheld hheld' htimeline
  · have hin := hc.resolve_left (not_not_intro rfl)
    have hflag : (s.evict key).2 = (r.evict key).2 := by rw [evict_answer, evict_answer, hin]
    exact congrArg (fun flag => Except.ok (Answer.changed flag)) hflag

end Congr

namespace Alike
variable (h : Alike agree r s)
include h

theorem mono {agree' : Key → Prop} (hle : ∀ key, agree' key → agree key) : Alike agree' r s :=
  ⟨h.store, h.config, h.left, h.right, fun key hk => h.inUse key (hle key hk)⟩

section Call
variable (hreads : r.store.failReads = false)
include hreads

/-- An access gives the same timeline in both registries, or fails alike. -/
theorem access_outcome (key : Key) :
    (s.access key).2.map Loaded.timeline = (r.access key).2.map Loaded.timeline := by
  have hreads' : s.store.failReads = false := h.store.failReads.trans hreads
  rw [access_coherent h.left hreads, access_coherent h.right hreads', h.config, h.store.table]

theorem access (key : Key) :
    Alike (fun k => agree k ∨ k = key) (r.access key).1 (s.access key).1 := by
  have hr := r.access_atMostLoaded key
  have hs := s.access_atMostLoaded key
  refine ⟨hs.store.trans (h.store.trans hr.store.symm), ?_, coherent_access h.left key,
    coherent_access h.right key, ?_⟩
  · rw [hr.config, hs.config, h.config]
  · intro k hk
    by_cases he : k = key
    · subst he
      rw [isSome_cached?_access, isSome_cached?_access]
      rcases map_eq_map (h.access_outcome hreads k) with ⟨e, hm, hl⟩ | ⟨m, l, hm, hl, -⟩
      · rw [hl, hm]
      · rw [hl, hm]
        rfl
    · rw [hr.others k he, hs.others k he]
      exact h.inUse k (hk.resolve_right he)

theorem change_answer (key : Key) (edit : Timeline → Timeline × Except TimelineError Bool) :
    (s.change key edit).2 = (r.change key edit).2 :=
  change_answer_congr (h.access_outcome hreads key) (h.access hreads key).store.failWrites edit

theorem change (hs : Timeline.Sound edit) (key : Key) :
    Alike (fun k => agree k ∨ k = key) (r.change key edit).1 (s.change key edit).1 := by
  have haccess := h.access hreads key
  refine ⟨?_, ?_, coherent_change hs h.left key, coherent_change hs h.right key, ?_⟩
  · have hleft := change_store hs r key
    have hright := change_store hs s key
    rw [h.change_answer hreads] at hright
    apply hright.trans
    apply Store.Same.trans _ hleft.symm
    rcases map_eq_map (h.access_outcome hreads key) with ⟨e, hm, hl⟩ | ⟨m, l, hm, hl, htimeline⟩
    · rw [hl, hm]
      rcases (r.change key edit).2 with e | _ | _ <;> exact haccess.store
    · rw [hl, hm]
      rcases (r.change key edit).2 with e | _ | _
      · exact haccess.store
      · exact haccess.store
      · dsimp only
        rw [htimeline]
        exact haccess.store.written _
  · rw [config_change hs, config_change hs, h.config]
  · intro k hk
    rw [isSome_cached?_change hs, isSome_cached?_change hs]
    exact haccess.inUse k hk

end Call

theorem evict (key : Key) :
    Alike (fun k => agree k ∨ k = key) (r.evict key).1 (s.evict key).1 := by
  refine ⟨h.store, h.config, coherent_evict h.left key, coherent_evict h.right key, ?_⟩
  intro k hk
  by_cases he : k = key
  · rw [he, cached?_evict_self, cached?_evict_self]
  · rw [cached?_evict_other he, cached?_evict_other he]
    exact h.inUse k (hk.resolve_right he)

theorem perform (hreads : r.store.failReads = false) (key : Key) (call : Call) :
    Alike (fun k => agree k ∨ k = key) (r.perform key call).1 (s.perform key call).1 := by
  rcases call_cases call with ⟨edit, hedit⟩ | ⟨look, hlook⟩ | rfl
  · rw [perform_edit hedit, perform_edit hedit]
    exact h.change hreads (Call.sound_edit? hedit) key
  · rw [perform_look hlook, perform_look hlook]
    exact h.access hreads key
  · exact h.evict key

/-- The answers are the same, but for that to an eviction of a key that does not agree. -/
theorem answer (hreads : r.store.failReads = false) (hc : call ≠ .evict ∨ agree key) :
    s.answer key call = r.answer key call :=
  answer_congr (h.access_outcome hreads key) (h.access hreads key).store.failWrites
    (hc.imp_right (h.inUse key))

theorem after {e : Event} (ho : e.Own)
    (hreads : ∀ key call, e = .call key call → r.store.failReads = false) :
    Alike (fun k => agree k ∨ e.Touches k) (r.after e) (s.after e) := by
  cases e with
  | call key call =>
    have hstep := h.perform (hreads key call rfl) key call
    apply hstep.mono
    intro k hk
    exact hk.imp_right Eq.symm
  | restart config =>
    exact ⟨h.store, rfl, coherent_after ho h.left, coherent_after ho h.right, fun _ _ => rfl⟩
  | failReads on =>
    refine ⟨⟨h.store.tables, rfl, h.store.failWrites⟩, h.config, coherent_after ho h.left,
      coherent_after ho h.right, ?_⟩
    intro k hk
    exact h.inUse k (hk.resolve_right id)
  | failWrites on =>
    refine ⟨⟨h.store.tables, h.store.failReads, rfl⟩, h.config, coherent_after ho h.left,
      coherent_after ho h.right, ?_⟩
    intro k hk
    exact h.inUse k (hk.resolve_right id)
  | addHeld handle q => exact ho.elim
  | setTable name bag => exact ho.elim
  | upsert name bag => exact ho.elim

theorem afterAll {later : List Event} (ho : ∀ e ∈ later, e.Own) (hreads : r.ReadsWork later) :
    Alike (fun k => agree k ∨ ∃ e ∈ later, e.Touches k) (r.afterAll later) (s.afterAll later) := by
  induction later generalizing agree r s with
  | nil =>
    apply h.mono
    intro k hk
    exact hk.resolve_right (by simp)
  | cons e rest ih =>
    have hstep := h.after (ho e List.mem_cons_self) hreads.1
    have hrest := ih hstep (fun d hd => ho d (List.mem_cons_of_mem e hd)) hreads.2
    apply hrest.mono
    rintro k (hk | ⟨d, hd, hk⟩)
    · exact Or.inl (Or.inl hk)
    · rcases List.mem_cons.mp hd with rfl | hd
      · exact Or.inl (Or.inr hk)
      · exact Or.inr ⟨d, hd, hk⟩

end Alike

theorem readsWork_append {later rest : List Event} :
    r.ReadsWork (later ++ rest) ↔ r.ReadsWork later ∧ (r.afterAll later).ReadsWork rest := by
  induction later generalizing r with
  | nil => exact ⟨fun h => ⟨trivial, h⟩, And.right⟩
  | cons e later ih => simp only [List.cons_append, ReadsWork, ih, afterAll, List.foldl_cons, and_assoc]

/-- What a new registry over the same store loads for a key when reads work. -/
def reloaded (r : Registry) (key : Key) : Except RegistryError Timeline :=
  ((ofStore { r.store with failReads := false } r.config).access key).2.map Loaded.timeline

theorem reloaded_eq (r : Registry) (key : Key) :
    r.reloaded key = timelineOf r.config key (r.store.table key.table) :=
  access_coherent (coherent_ofStore { r.store with failReads := false } r.config) rfl key

/-- After any history of its own, whatever its store held at first, a registry has in use only what it
would load again; and evicting a key is not seen by any later answer while reads work, but for an
eviction of that key before anything else has touched it. -/
theorem cache_coherent (store : Store) (config : Config) {history : List Event}
    (ho : ∀ e ∈ history, e.Own) :
    let r := (ofStore store config).afterAll history
    (∀ key l, r.cached? key = some l → r.reloaded key = .ok l.timeline) ∧
      ∀ k later key call, (∀ e ∈ later, e.Own) → r.ReadsWork (later ++ [.call key call]) →
        (call ≠ .evict ∨ key ≠ k ∨ ∃ e ∈ later, e.Touches k) →
        ((r.evict k).1.afterAll later).answer key call = (r.afterAll later).answer key call := by
  intro r
  have hr : r.Coherent := coherent_afterAll ho (coherent_ofStore store config)
  constructor
  · intro key l hl
    rw [reloaded_eq]
    exact hr key l hl
  · intro k later key call hlater hreads hseen
    obtain ⟨hbefore, hlast, -⟩ := readsWork_append.mp hreads
    have hsame := (alike_evict hr k).afterAll hlater hbefore
    apply hsame.answer (hlast key call rfl)
    rcases hseen with hcall | hkey | ⟨e, he, ht⟩
    · exact Or.inl hcall
    · exact Or.inr (Or.inl hkey)
    · by_cases hk : key = k
      · exact Or.inr (Or.inr ⟨e, he, hk ▸ ht⟩)
      · exact Or.inr (Or.inl hk)

/-- A day that was added is listed again after the eviction of its timeline. -/
theorem cache_coherent_after_add :
    let key : Key := ⟨"events", .daily, "dt"⟩
    let day : Cell .daily := ⟨3, by decide, by decide⟩
    let r := (ofStore .empty .standard).afterAll [.call key (.add ⟨.daily, day⟩)]
    r.reloaded key = .ok ⟨key, .listed ⟨[day], by simp⟩⟩ ∧
      (r.evict key).1.answer key .list = r.answer key .list := by
  intro key day r
  have hown : ∀ e ∈ [Event.call key (.add ⟨.daily, day⟩)], e.Own := by simp [Event.Own]
  obtain ⟨hcached, hevict⟩ := cache_coherent .empty .standard hown
  have hreads : r.ReadsWork ([] ++ [.call key .list]) := ⟨fun _ _ _ => rfl, trivial⟩
  constructor
  · exact hcached key ⟨0, key, .listed ⟨[day], by simp⟩⟩ rfl
  · exact hevict key [] key .list (by simp) hreads (Or.inl (by simp))

/-- Without that exception it fails: a key that was evicted is not in use, and evicting it once more
says so. -/
theorem eviction_seen_by_next :
    ¬ ∀ (store : Store) (config : Config) (history later : List Event) (k key : Key) (call : Call),
      (∀ e ∈ history, e.Own) → (∀ e ∈ later, e.Own) →
      ((ofStore store config).afterAll history).ReadsWork (later ++ [.call key call]) →
      ((((ofStore store config).afterAll history).evict k).1.afterAll later).answer key call =
        (((ofStore store config).afterAll history).afterAll later).answer key call := by
  intro h
  let key : Key := ⟨"events", .daily, "dt"⟩
  have hown : ∀ e ∈ [Event.call key .read], e.Own := by
    intro e he
    rw [List.mem_singleton.mp he]
    trivial
  have hreads : ((ofStore .empty .standard).afterAll [.call key .read]).ReadsWork
      ([] ++ [.call key .evict]) := ⟨fun _ _ _ => rfl, trivial⟩
  have hsame := h .empty .standard [.call key .read] [] key key .evict hown (by simp) hreads
  cases hsame

end Registry
end PartitionLedger

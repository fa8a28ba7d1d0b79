import PartitionLedger.Proofs.Eviction
import PartitionLedger.Proofs.LoadGate
import PartitionLedger.Proofs.Requests

/-!
Calls of different keys commute, whatever the registry and its store are, if they are about timelines of
different keys. Neither call is seen by the other: it finds the same timeline, answers the same and asks the
same of the store. What both ask of the store can be done in any order.

The condition is needed: a holder may have put a timeline of one key in place of that of the other.
-/
namespace PartitionLedger.Registry

variable {r s : Registry} {key other k l : Key} {call : Call}
  {edit : Timeline → Timeline × Except TimelineError Bool}

/-- Registries that have the same timeline in use for a key, or none and would load the same one, over
stores whose writes fail alike. -/
structure SameFor (key : Key) (r s : Registry) : Prop where
  cached : (s.cached? key).map Loaded.timeline = (r.cached? key).map Loaded.timeline
  stored : r.cached? key = none → s.stored key = r.stored key
  failWrites : s.store.failWrites = r.store.failWrites

/-- An access that fails leaves no timeline in use, any other the one that it gives. -/
theorem cached?_access_self (r : Registry) (key : Key) :
    ((r.access key).1.cached? key).map Loaded.timeline =
      ((r.access key).2.map Loaded.timeline).toOption := by
  cases haccess : (r.access key).2 with
  | error e =>
    obtain ⟨hnone, hrefuses⟩ := access_eq_error.mp haccess
    rw [access_of_refused hnone hrefuses]
    exact congrArg (Option.map Loaded.timeline) hnone
  | ok l =>
    rw [cached?_access haccess]
    rfl

/-- A change that is written leaves the edited timeline in use, any other what the access left. -/
theorem cached?_change_self (hs : Timeline.Sound edit) (r : Registry) (key : Key) :
    ((r.change key edit).1.cached? key).map Loaded.timeline =
      match (r.change key edit).2, (r.access key).2.map Loaded.timeline with
      | .ok true, .ok t => some (edit t).1
      | _, outcome => outcome.toOption := by
  rcases change_cases hs r key with
    ⟨e, store, -, hchange⟩ | ⟨l, hl, ⟨-, hchange⟩ | ⟨-, -, hchange⟩⟩
  · rw [hchange]
    exact cached?_access_self r key
  · rw [hchange]
    exact cached?_access_self r key
  · rw [hchange, hl]
    exact congrArg (Option.map Loaded.timeline) (cached?_committed_self (cached?_access hl) _)

namespace SameFor
variable (h : SameFor key r s)
include h

theorem access : (s.access key).2.map Loaded.timeline = (r.access key).2.map Loaded.timeline := by
  rw [access_outcome, access_outcome, h.cached]
  cases hc : r.cached? key with
  | none => exact h.stored hc
  | some l => rfl

theorem isSome_cached? : (s.cached? key).isSome = (r.cached? key).isSome := by
  simpa using congrArg Option.isSome h.cached

theorem failWrites_access :
    (s.access key).1.store.failWrites = (r.access key).1.store.failWrites := by
  rw [(s.access_atMostLoaded key).store.failWrites, (r.access_atMostLoaded key).store.failWrites,
    h.failWrites]

theorem answer (call : Call) : s.answer key call = r.answer key call :=
  answer_congr h.access h.failWrites_access (Or.inr h.isSome_cached?)

theorem requests (call : Call) : s.requests key call = r.requests key call := by
  simp only [Registry.requests, fetches, h.isSome_cached?, h.access]

/-- A call leaves the same timeline in use for its key. -/
theorem cached?_perform (call : Call) : ((s.perform key call).1.cached? key).map Loaded.timeline =
    ((r.perform key call).1.cached? key).map Loaded.timeline := by
  rcases call_cases call with ⟨edit, hedit⟩ | ⟨look, hlook⟩ | rfl
  · have hs := Call.sound_edit? hedit
    rw [perform_edit hedit, perform_edit hedit]
    change ((s.change key edit).1.cached? key).map _ = ((r.change key edit).1.cached? key).map _
    rw [cached?_change_self hs, cached?_change_self hs, h.access,
      change_answer_congr h.access h.failWrites_access]
  · rw [perform_look hlook, perform_look hlook]
    change ((s.access key).1.cached? key).map _ = ((r.access key).1.cached? key).map _
    rw [cached?_access_self, cached?_access_self, h.access]
  · change ((s.evict key).1.cached? key).map _ = ((r.evict key).1.cached? key).map _
    rw [cached?_evict_self, cached?_evict_self]

end SameFor

section Frame
variable {config : Config} {store : Store} {a : Request} {requests : List Request} {about : Key}

/-- What a table stands for is not touched by what is asked for another key. -/
theorem timelineOf_serve_other (hne : other ≠ about) (ha : a.Of about) :
    timelineOf config other ((store.serve a).table other.table) =
      timelineOf config other (store.table other.table) := by
  cases a with
  | read => rfl
  | write t =>
    cases ha
    rw [Store.serve_write]
    split
    · rfl
    · exact timelineOf_written_other hne store config

theorem timelineOf_serveAll_other (hne : other ≠ about) (hof : ∀ a ∈ requests, a.Of about) :
    timelineOf config other ((store.serveAll requests).table other.table) =
      timelineOf config other (store.table other.table) := by
  induction requests generalizing store with
  | nil => rfl
  | cons a rest ih =>
    change timelineOf config other (((store.serve a).serveAll rest).table other.table) = _
    rw [ih fun b hb => hof b (List.mem_cons_of_mem a hb)]
    exact timelineOf_serve_other hne (hof a List.mem_cons_self)

theorem stored_perform_other (call : Call) (hne : other ≠ r.subject key) :
    (r.perform key call).1.stored other = r.stored other := by
  simp only [stored, config_perform, store_perform, Store.failReads_serveAll,
    timelineOf_serveAll_other hne (r.requests_of key call)]

/-- No call is seen by another key, if the calls of both are about timelines of different keys. -/
theorem sameFor_perform (call : Call) (hne : other ≠ key) (hsubject : r.subject other ≠ r.subject key) :
    SameFor other r (r.perform key call).1 := by
  refine ⟨?_, ?_, ?_⟩
  · rw [cached?_perform_other call hne]
  · intro hnone
    rw [subject_of_uncached hnone] at hsubject
    exact stored_perform_other call hsubject
  · rw [store_perform, Store.failWrites_serveAll]

end Frame

/-- Two calls can be made in either order: each is answered the same, and they leave the same store and the
same timelines in use. -/
structure Commute (r : Registry) (k : Key) (c : Call) (l : Key) (d : Call) : Prop where
  left : (r.perform l d).1.answer k c = r.answer k c
  right : (r.perform k c).1.answer l d = r.answer l d
  store : ((r.perform l d).1.perform k c).1.store = ((r.perform k c).1.perform l d).1.store
  inUse : ∀ key, (((r.perform l d).1.perform k c).1.cached? key).map Loaded.timeline =
    (((r.perform k c).1.perform l d).1.cached? key).map Loaded.timeline

theorem commute_of_subject_ne (r : Registry) (c d : Call) (hne : k ≠ l)
    (hsubject : r.subject k ≠ r.subject l) : r.Commute k c l d := by
  have hk : SameFor k r (r.perform l d).1 := sameFor_perform d hne hsubject
  have hl : SameFor l r (r.perform k c).1 := sameFor_perform c hne.symm hsubject.symm
  refine ⟨hk.answer c, hl.answer d, ?_, ?_⟩
  -- in either order each call asks for what it asks for on its own
  · simp only [store_perform, hk.requests, hl.requests]
    exact Store.serveAll_comm hsubject.symm (r.requests_of l d) (r.requests_of k c)
  -- one of the two keys has in use what its own call leaves, any other what it had before
  · intro key
    by_cases hkey : key = k
    · subst hkey
      rw [hk.cached?_perform, cached?_perform_other d hne]
    · by_cases hlkey : key = l
      · subst hlkey
        rw [hl.cached?_perform, cached?_perform_other c hkey]
      · rw [cached?_perform_other c hkey, cached?_perform_other d hlkey,
          cached?_perform_other d hlkey, cached?_perform_other c hkey]

theorem WellKept.subject (h : r.WellKept) (key : Key) : r.subject key = key := by
  cases hc : r.cached? key with
  | none => exact subject_of_uncached hc
  | some l => simpa [Registry.subject, hc] using h.keyed key l hc

/-- Calls of different keys commute, whatever the registry and its store are, if they are about timelines of
different keys too. After any history each call is about a timeline of its own key, unless somebody who holds
one has put a timeline of another key in its place. -/
theorem calls_commute :
    (∀ (r : Registry) (k l : Key) (c d : Call), k ≠ l → r.subject k ≠ r.subject l →
      r.Commute k c l d) ∧
    ∀ (store : Store) (config : Config) (history : List Event) (key : Key),
      ((ofStore store config).afterAll history).subject key = key :=
  ⟨fun r _ _ c d => commute_of_subject_ne r c d,
    fun store config history => ((wellKept_ofStore store config).afterAll history).subject⟩

/-- Two columns of a table, one of which is named like the start of a property of the other. -/
theorem calls_commute_of_dotted_column :
    let k : Key := ⟨"events", .daily, "dt"⟩
    let l : Key := ⟨"events", .daily, "dt.storage"⟩
    let day : Partition := ⟨.daily, 3, by decide, by decide⟩
    let r := (ofStore .empty .standard).afterAll [.call l (.add day), .failReads true]
    r.subject k = k ∧ r.subject l = l ∧ r.Commute k (.add day) l (.drop day) ∧
      (r.perform l (.drop day)).1.answer k (.add day) =
        .error (.load "events" (.readsFailing "events")) := by
  intro k l day r
  obtain ⟨hcommute, hsubject⟩ := calls_commute
  have hk : r.subject k = k := hsubject .empty .standard [.call l (.add day), .failReads true] k
  have hl : r.subject l = l := hsubject .empty .standard [.call l (.add day), .failReads true] l
  have hne : k ≠ l := by decide
  have hboth := hcommute r k l (.add day) (.drop day) hne (by rwa [hk, hl])
  have hrefused : r.answer k (.add day) = .error (.load "events" (.readsFailing "events")) := rfl
  exact ⟨hk, hl, hboth, hboth.left.trans hrefused⟩

/-- Different keys alone are not enough. Somebody who holds the timeline of `k` puts an empty one of `l` in
its place. A day that is added to it is written for `l`, and whether it is there when `l` is asked depends on
the order. -/
theorem calls_on_swapped_timeline :
    ¬ ∀ (r : Registry) (k l : Key) (c d : Call), k ≠ l → r.Commute k c l d := by
  intro h
  let k : Key := ⟨"events", .daily, "dt"⟩
  let l : Key := ⟨"events", .daily, "created"⟩
  let day : Partition := ⟨.daily, 3, by decide, by decide⟩
  let held := ((ofStore .empty .standard).perform k .hold).1
  let swapped := held.setHeld 0 (.empty l .storeAll)
  have hafter : (swapped.perform k (.add day)).1.answer l (.has [day]) = .ok (.flags [true]) := by
    decide +kernel
  have hbefore : swapped.answer l (.has [day]) = .ok (.flags [false]) := by decide +kernel
  have hsame := (h swapped k l (.add day) (.has [day]) (by decide)).right
  rw [hafter, hbefore] at hsame
  exact absurd hsame (by decide)

end PartitionLedger.Registry

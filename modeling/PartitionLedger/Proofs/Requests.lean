import PartitionLedger.Proofs.Coherence

/-!
What the calls of a registry ask of its store, as data. What is asked for one key and what is asked for
another can be done in any order, also where both are written to the bag of one table.
-/
namespace PartitionLedger

namespace Key
variable {p q : Period}

/-- What is written for a timeline stands behind its scope, but for the mark of its table. -/
theorem mem_written {k : Key} {t : Contents p} {name value : String}
    (h : (name, value) ∈ k.written t) :
    (∃ property : Property, name = k.scope ++ property.name) ∨
      name = timelinesPresent ∧ value = "true" := by
  rcases List.mem_append.mp h with h | h
  · obtain ⟨property, -, he⟩ := List.mem_map.mp h
    exact Or.inl ⟨property, (congrArg Prod.fst he).symm⟩
  · rcases List.mem_cons.mp h with he | h
    · exact Or.inl ⟨.storageClass, congrArg Prod.fst he⟩
    · cases List.mem_singleton.mp h
      exact Or.inr ⟨rfl, rfl⟩

/-- Two timelines of a table are written with one value where they are written to one name. -/
theorem toTable_agree {k l : Key} (htable : k.table = l.table) (hne : k ≠ l) (t : Contents p)
    (u : Contents q) : ∀ name v w, (k.toTable t.strategy t.encode).get? name = some v →
      (l.toTable u.strategy u.encode).get? name = some w → v = w := by
  intro name v w hv hw
  rw [toTable_encode, OrderedMap.get?_ofList (nodup_written t k)] at hv
  rw [toTable_encode, OrderedMap.get?_ofList (nodup_written u l)] at hw
  rcases mem_written hv with ⟨property, rfl⟩ | ⟨rfl, rfl⟩
  · rcases mem_written hw with ⟨other, he⟩ | ⟨he, -⟩
    · exact absurd (scope_append_inj htable he).1 hne
    · exact absurd he (scope_append_ne_present k _)
  · rcases mem_written hw with ⟨other, he⟩ | ⟨-, rfl⟩
    · exact absurd he.symm (scope_append_ne_present l _)
    · rfl

end Key

namespace Store
variable {s : Store} {t u : Timeline}

theorem get?_written (s : Store) (t : Timeline) (name : String) :
    (s.written t).tables.get? name = if name = t.key.table then
      some ((s.table t.key.table).upsert (t.key.toTable t.strategy t.encode))
    else s.tables.get? name :=
  OrderedMap.get?_insert

/-- Timelines of different keys are written in any order. -/
theorem written_comm (h : t.key ≠ u.key) : (s.written t).written u = (s.written u).written t := by
  have htables : ((s.written t).written u).tables = ((s.written u).written t).tables := by
    apply OrderedMap.ext_get?
    intro name
    simp only [get?_written, table_written]
    by_cases htable : t.key.table = u.key.table
    · have hagree := Key.toTable_agree htable h t.contents u.contents
      simp only [htable, if_true]
      split
      · exact congrArg some (OrderedMap.upsert_comm hagree)
      · rfl
    · simp only [if_neg htable, if_neg (Ne.symm htable)]
      split
      · rename_i hname
        rw [if_neg (hname ▸ Ne.symm htable)]
      · rfl
  rw [written, written, mk.injEq]
  exact ⟨htables, rfl, rfl, rfl, rfl⟩

end Store

/-- What a registry asks of its store. -/
inductive Request where
  /-- To read the bag of a table. -/
  | read
  /-- To write a timeline to its table. -/
  | write (t : Timeline)

/-- A write is one of a timeline of the key. -/
def Request.Of (key : Key) : Request → Prop
  | read => True
  | write t => t.key = key

namespace Store
variable {s : Store} {k l : Key} {a b : Request} {requests : List Request}

/-- The store after a request, which may fail. -/
def serve (s : Store) : Request → Store
  | .read => { s with reads := s.reads + 1 }
  | .write t => (s.write t.key.table (t.key.toTable t.strategy t.encode)).1

def serveAll (s : Store) (requests : List Request) : Store := requests.foldl serve s

theorem serve_write (s : Store) (t : Timeline) :
    s.serve (.write t) = if s.failWrites then { s with writes := s.writes + 1 } else s.written t := by
  obtain ⟨tables, failReads, failWrites, reads, writes⟩ := s
  cases failWrites <;> rfl

@[simp] theorem failReads_serve : (s.serve a).failReads = s.failReads := by
  cases a with
  | read => rfl
  | write t =>
    rw [serve_write]
    split <;> rfl

@[simp] theorem failWrites_serve : (s.serve a).failWrites = s.failWrites := by
  cases a with
  | read => rfl
  | write t =>
    rw [serve_write]
    split <;> rfl

@[simp] theorem failReads_serveAll : (s.serveAll requests).failReads = s.failReads := by
  induction requests generalizing s with
  | nil => rfl
  | cons a rest ih => exact ih.trans failReads_serve

@[simp] theorem failWrites_serveAll : (s.serveAll requests).failWrites = s.failWrites := by
  induction requests generalizing s with
  | nil => rfl
  | cons a rest ih => exact ih.trans failWrites_serve

theorem serve_read_comm : (s.serve .read).serve a = (s.serve a).serve .read := by
  cases a with
  | read => rfl
  | write t =>
    rw [serve_write, serve_write]
    obtain ⟨tables, failReads, failWrites, reads, writes⟩ := s
    cases failWrites <;> rfl

/-- Requests of different keys are served in any order. -/
theorem serve_comm (hne : k ≠ l) (ha : a.Of k) (hb : b.Of l) :
    (s.serve a).serve b = (s.serve b).serve a := by
  cases a with
  | read => exact serve_read_comm
  | write t =>
    cases b with
    | read => exact serve_read_comm.symm
    | write u =>
      cases ha
      cases hb
      rw [serve_write (s.serve _) u, serve_write (s.serve _) t, failWrites_serve, failWrites_serve]
      split
      · rename_i hfail
        simp only [serve_write, if_pos hfail]
      · rename_i hfail
        simp only [serve_write, if_neg hfail]
        exact written_comm hne

theorem serveAll_serve_comm (hne : k ≠ l) (ha : a.Of k) (hb : ∀ b ∈ requests, b.Of l) :
    (s.serve a).serveAll requests = (s.serveAll requests).serve a := by
  induction requests generalizing s with
  | nil => rfl
  | cons b rest ih =>
    have hfirst := serve_comm (s := s) hne ha (hb b List.mem_cons_self)
    have hrest := ih (s := s.serve b) fun b' hb' => hb b' (List.mem_cons_of_mem b hb')
    change ((s.serve a).serve b).serveAll rest = ((s.serve b).serveAll rest).serve a
    rw [hfirst, hrest]

theorem serveAll_comm {others : List Request} (hne : k ≠ l) (ha : ∀ a ∈ requests, a.Of k)
    (hb : ∀ b ∈ others, b.Of l) :
    (s.serveAll requests).serveAll others = (s.serveAll others).serveAll requests := by
  induction requests generalizing s with
  | nil => rfl
  | cons a rest ih =>
    have hfirst := serveAll_serve_comm (s := s) hne (ha a List.mem_cons_self) hb
    have hrest := ih (s := s.serve a) fun a' ha' => ha a' (List.mem_cons_of_mem a ha')
    change ((s.serve a).serveAll rest).serveAll others = ((s.serveAll others).serve a).serveAll rest
    rw [hrest, hfirst]

end Store

namespace Registry
variable {r : Registry} {key other : Key} {call : Call}
  {edit : Timeline → Timeline × Except TimelineError Bool}

/-- What an access asks for. -/
def fetches (r : Registry) (key : Key) : List Request :=
  if (r.cached? key).isSome then [] else [.read]

/-- What a change asks for when it has made its edit. -/
def writes (edit : Timeline → Timeline × Except TimelineError Bool) (t : Timeline) : List Request :=
  match edit t with
  | (u, .ok true) => [.write u]
  | _ => []

/-- What a call asks for. -/
def requests (r : Registry) (key : Key) (call : Call) : List Request :=
  if call = .evict then []
  else
    r.fetches key ++ match call.edit?, (r.access key).2.map Loaded.timeline with
      | some edit, .ok t => writes edit t
      | _, _ => []

theorem store_access (r : Registry) (key : Key) :
    (r.access key).1.store = r.store.serveAll (r.fetches key) := by
  cases hc : r.cached? key with
  | some l => simp [access_of_cached hc, fetches, hc, Store.serveAll]
  | none =>
    have hfetches : r.fetches key = [.read] := by simp [fetches, hc]
    rw [hfetches]
    rcases access_of_uncached hc with ⟨e, -, haccess⟩ | ⟨t, -, haccess⟩
    · rw [haccess]
      rfl
    · rw [haccess]
      rfl

theorem store_persistEdited (store : Store) (t : Timeline) :
    (persistEdited store (edit t).1 (edit t).2).1 = store.serveAll (writes edit t) := by
  simp only [writes]
  rcases edit t with ⟨u, e | _ | _⟩ <;> rfl

/-- A call leaves the store as its requests do. -/
theorem store_perform (r : Registry) (key : Key) (call : Call) :
    (r.perform key call).1.store = r.store.serveAll (r.requests key call) := by
  rcases call_cases call with ⟨edit, hedit⟩ | ⟨look, hlook⟩ | rfl
  · rw [requests, if_neg (Call.ne_evict_of_edit? hedit), hedit, perform_edit hedit]
    change (r.change key edit).1.store = _
    rw [store_change, store_access]
    cases (r.access key).2 with
    | error e => simp [Except.map]
    | ok l => simp [Except.map, store_persistEdited, Store.serveAll]
  · simp [requests, if_neg (Call.ne_evict_of_look? hlook), Call.edit?_of_look? hlook,
      perform_look hlook, store_access]
  · rfl

/-- The key of the timeline that a call is about: the one in use for its key, whose key may be another
one, or else the one that is loaded. -/
def subject (r : Registry) (key : Key) : Key :=
  ((r.cached? key).map fun l => l.timeline.key).getD key

theorem subject_of_uncached (h : r.cached? key = none) : r.subject key = key := by
  simp [subject, h]

theorem key_access {l : Loaded} (h : (r.access key).2 = .ok l) : l.timeline.key = r.subject key := by
  rcases r.access_cases key with
    ⟨m, hm, haccess⟩ | ⟨hnone, store, -, ⟨e, haccess, -⟩ | ⟨t, haccess, -, ht⟩⟩
  · rw [haccess] at h
    cases h
    simp [subject, hm]
  · rw [haccess] at h
    cases h
  · rw [haccess] at h
    cases h
    rw [subject_of_uncached hnone]
    exact (of_timelineOf ht).1

theorem writes_of (hs : Timeline.Sound edit) {t : Timeline} (ht : t.key = key) :
    ∀ a ∈ writes edit t, a.Of key := by
  intro a ha
  have hkey := (hs.key t).trans ht
  simp only [writes] at ha
  split at ha
  · rename_i u hedit
    rw [hedit] at hkey
    exact List.mem_singleton.mp ha ▸ hkey
  · cases ha

theorem fetches_of (r : Registry) (key k : Key) : ∀ a ∈ r.fetches key, a.Of k := by
  intro a ha
  simp only [fetches] at ha
  split at ha
  · cases ha
  · exact List.mem_singleton.mp ha ▸ trivial

/-- A call asks for nothing of another key than that of the timeline it is about. -/
theorem requests_of (r : Registry) (key : Key) (call : Call) :
    ∀ a ∈ r.requests key call, a.Of (r.subject key) := by
  intro a ha
  simp only [requests] at ha
  split at ha
  · cases ha
  · rcases List.mem_append.mp ha with ha | ha
    · exact r.fetches_of key _ a ha
    · split at ha
      · rename_i edit t hedit ht
        obtain ⟨l, hl, rfl⟩ := map_eq_ok.mp ht
        exact writes_of (Call.sound_edit? hedit) (key_access hl) a ha
      · cases ha

end Registry
end PartitionLedger

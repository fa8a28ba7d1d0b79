import PartitionLedger.Registry.Config
import PartitionLedger.Registry.Error
import PartitionLedger.Timeline.Basic
import PartitionLedger.Timeline.Scope

/-!
Registries: the timelines of many tables, loaded from the store on first use and kept until they are
evicted. A change is made in place and written to the store before it counts, and undone if that
fails.

Whoever asks for a timeline gets a handle on it, which outlives the eviction of the timeline and the
restart of the registry. The holder may put anything in its place, also a timeline of another key than the
one it is in use for.
-/
namespace PartitionLedger

/-- A timeline and the handle that leads to it. -/
structure Loaded where
  handle : Nat
  timeline : Timeline
deriving DecidableEq

structure Registry where
  store : Store
  config : Config
  /-- Every timeline that was ever loaded. The handle on a timeline is its place here. -/
  timelines : List Timeline
  /-- The handle on the timeline in use for a key, if there is one. -/
  inUse : Key → Option Nat
  /-- A handle in use leads to a timeline. -/
  inUse_lt : ∀ key handle, inUse key = some handle → handle < timelines.length
  /-- No two keys have the same handle in use. -/
  inUse_inj : ∀ key other handle, inUse key = some handle → inUse other = some handle → key = other

namespace Registry

/-- A registry over a store, with no timeline in use. -/
def ofStore (store : Store) (config : Config) : Registry where
  store := store
  config := config
  timelines := []
  inUse _ := none
  inUse_lt := nofun
  inUse_inj := nofun

/-- A new registry over the same store. -/
def restart (r : Registry) (config : Config) : Registry :=
  { r with config, inUse := fun _ => none, inUse_lt := nofun, inUse_inj := nofun }

/-- The timeline that a handle leads to. -/
def held? (r : Registry) (handle : Nat) : Option Timeline := r.timelines[handle]?

/-- Puts a timeline in place of the one that a handle leads to. -/
def setHeld (r : Registry) (handle : Nat) (timeline : Timeline) : Registry :=
  { r with
    timelines := r.timelines.set handle timeline
    inUse_lt := by
      rw [List.length_set]
      exact r.inUse_lt }

/-- The timeline in use for a key. -/
def cached? (r : Registry) (key : Key) : Option Loaded := do
  let handle ← r.inUse key
  let timeline ← r.held? handle
  return ⟨handle, timeline⟩

theorem inUse_ne_length (r : Registry) (key : Key) : r.inUse key ≠ some r.timelines.length :=
  fun h => Nat.lt_irrefl _ (r.inUse_lt key _ h)

/-- Puts a timeline in use for a key, behind a handle that is new. -/
def opened (r : Registry) (key : Key) (timeline : Timeline) : Registry :=
  { r with
    timelines := r.timelines ++ [timeline]
    inUse := fun k => if k = key then some r.timelines.length else r.inUse k
    inUse_lt := by
      intro k handle h
      rw [List.length_append, List.length_singleton]
      split at h
      · cases h
        exact Nat.lt_succ_self _
      · exact Nat.lt_succ_of_lt (r.inUse_lt k handle h)
    inUse_inj := by
      intro k l handle hk hl
      split at hk
      · split at hl
        · simp [*]
        · cases hk
          exact absurd hl (r.inUse_ne_length l)
      · split at hl
        · cases hl
          exact absurd hk (r.inUse_ne_length k)
        · exact r.inUse_inj k l handle hk hl }

/-- The strategy that properties were stored by: the one among them, or else that of the
configuration. -/
def strategyOf (config : Config) (key : Key) (bag : Bag) : Except Strategy.Unknown Strategy :=
  match bag.get? Property.storageClass.name with
  | some name => Strategy.read name
  | none => .ok (config.strategyFor key.period)

/-- The timeline that the bag of a table stands for. New timelines get the strategy of the
configuration. -/
def timelineOf (config : Config) (key : Key) (table : Bag) : Except RegistryError Timeline :=
  let bag := key.ofTable table
  if bag.isEmpty then .ok (.empty key (config.strategyFor key.period))
  else
    match strategyOf config key bag with
    | .error e => .error (.timeline (.corrupt key ⟨.storageClass, .unknownStrategy e⟩))
    | .ok strategy =>
      match (Timeline.empty key strategy).load bag with
      | (_, .error e) => .error (.timeline e)
      | (_, .ok false) => .error (.inconsistent key)
      | (timeline, .ok true) => .ok timeline

/-- The timeline of a key, from the store if it is not in use. What cannot be loaded is not kept. -/
def access (r : Registry) (key : Key) : Registry × Except RegistryError Loaded :=
  match r.cached? key with
  | some loaded => (r, .ok loaded)
  | none =>
    match r.store.read key.table with
    | (store, .error e) => ({ r with store }, .error (.load key.table e))
    | (store, .ok table) =>
      match timelineOf r.config key table with
      | .error e => ({ r with store }, .error e)
      | .ok timeline => ({ r with store }.opened key timeline, .ok ⟨r.timelines.length, timeline⟩)

/-- Writes a timeline to the store. -/
def persist (store : Store) (t : Timeline) : Store × Except RegistryError Unit :=
  let (store, outcome) := store.write t.key.table (t.key.toTable t.strategy t.encode)
  (store, outcome.mapError (.persist t.key))

/-- Writes an edited timeline to the store, if the edit says that it has become another one. -/
def persistEdited (store : Store) (t : Timeline) :
    Except TimelineError Bool → Store × Except RegistryError Bool
  | .error e => (store, .error (.timeline e))
  | .ok false => (store, .ok false)
  | .ok true => (persist store t).map id (·.map fun _ => true)

/-- Changes the timeline of a key in place and writes it to the store, if it has become another one.
Where either fails, the timeline gets back what it held before. -/
def change (r : Registry) (key : Key) (edit : Timeline → Timeline × Except TimelineError Bool) :
    Registry × Except RegistryError Bool :=
  match r.access key with
  | (r, .error e) => (r, .error e)
  | (r, .ok loaded) =>
    let (edited, outcome) := edit loaded.timeline
    let (store, outcome) := persistEdited r.store edited outcome
    let r := { r with store }.setHeld loaded.handle edited
    match outcome with
    | .error e => (r.setHeld loaded.handle loaded.timeline, .error e)
    | .ok flag => (r, .ok flag)

def add (r : Registry) (key : Key) (q : Partition) : Registry × Except RegistryError Bool :=
  r.change key (·.add q)

/-- Makes all the partitions exist, or none of them. -/
def addAll (r : Registry) (key : Key) (qs : List Partition) : Registry × Except RegistryError Bool :=
  r.change key (·.addAll qs)

/-- Makes all the partitions of a range exist, or none of them. -/
def addRange (r : Registry) (key : Key) (range : Range) : Registry × Except RegistryError Bool :=
  r.change key (·.addRange range)

def drop (r : Registry) (key : Key) (q : Partition) : Registry × Except RegistryError Bool :=
  r.change key (·.drop q)

/-- Asks the timeline of a key. -/
def ask {α : Type} (r : Registry) (key : Key) (question : Timeline → Except TimelineError α) :
    Registry × Except RegistryError α :=
  match r.access key with
  | (r, .error e) => (r, .error e)
  | (r, .ok loaded) => (r, (question loaded.timeline).mapError .timeline)

/-- Puts the timeline of a key out of use, so that the next access loads it again; says whether it
was in use. -/
def evict (r : Registry) (key : Key) : Registry × Bool :=
  let left : Registry :=
    { r with
      inUse := fun k => if k = key then none else r.inUse k
      inUse_lt := by
        intro k handle h
        split at h
        · cases h
        · exact r.inUse_lt k handle h
      inUse_inj := by
        intro k l handle hk hl
        split at hk
        · cases hk
        · split at hl
          · cases hl
          · exact r.inUse_inj k l handle hk hl }
  (left, (r.inUse key).isSome)

/-- Changes the timeline that a handle leads to, without a write to the store. -/
def addHeld (r : Registry) (handle : Nat) (q : Partition) :
    Registry × Option (Except TimelineError Bool) :=
  match r.held? handle with
  | none => (r, none)
  | some timeline =>
    let (timeline, outcome) := timeline.add q
    (r.setHeld handle timeline, some outcome)

end Registry
end PartitionLedger

import PartitionLedger.Registry.Basic

/-!
What can happen to a registry and its store, as data, so that a history is a list of events.
-/
namespace PartitionLedger

/-- What a client asks of the timeline of one key. -/
inductive Call where
  | add (q : Partition)
  | addAll (qs : List Partition)
  | addRange (range : Range)
  | drop (q : Partition)
  | read
  | list
  | listWithin (range : Range)
  | has (qs : List Partition)
  /-- Takes a handle on the timeline. -/
  | hold
  | evict
deriving DecidableEq

inductive Answer where
  /-- Whether the call changed anything. -/
  | changed (flag : Bool)
  | timeline (t : Timeline)
  | partitions (qs : List Partition)
  | flags (bs : List Bool)
  | handle (n : Nat)
deriving DecidableEq

inductive Event where
  | call (key : Key) (call : Call)
  /-- A change on a handle itself, which is not written to the store. -/
  | addHeld (handle : Nat) (q : Partition)
  | restart (config : Config)
  | failReads (on : Bool)
  | failWrites (on : Bool)
  /-- Somebody else replaces the bag of a table. -/
  | setTable (name : String) (bag : Bag)
  /-- Somebody else writes properties over those of a table. -/
  | upsert (name : String) (bag : Bag)

namespace Registry

def perform (r : Registry) (key : Key) : Call → Registry × Except RegistryError Answer
  | .add q => (r.add key q).map id (·.map .changed)
  | .addAll qs => (r.addAll key qs).map id (·.map .changed)
  | .addRange range => (r.addRange key range).map id (·.map .changed)
  | .drop q => (r.drop key q).map id (·.map .changed)
  | .read => r.ask key fun t => .ok (.timeline t)
  | .list => r.ask key fun t => .ok (.partitions t.toList)
  | .listWithin range => r.ask key fun t => (t.toListWithin range).map .partitions
  | .has qs => r.ask key fun t => .ok (.flags (qs.map t.has))
  | .hold => (r.access key).map id (·.map fun loaded => .handle loaded.handle)
  | .evict => (r.evict key).map id fun flag => .ok (.changed flag)

/-- The registry after an event. -/
def after (r : Registry) : Event → Registry
  | .call key call => (r.perform key call).1
  | .addHeld handle q => (r.addHeld handle q).1
  | .restart config => r.restart config
  | .failReads on => { r with store := { r.store with failReads := on } }
  | .failWrites on => { r with store := { r.store with failWrites := on } }
  | .setTable name bag => { r with store := r.store.setTable name bag }
  | .upsert name bag =>
    match r.store.upsert name bag with
    | .ok store => { r with store }
    | .error _ => r

/-- The registry after a history, the earliest event first. -/
def afterAll (r : Registry) (history : List Event) : Registry := history.foldl after r

end Registry
end PartitionLedger

import PartitionLedger.Timeline.Edit
import PartitionLedger.Timeline.Starts

/-!
Timelines that keep the instants their partitions start at, and look partitions up when they give them.
-/
namespace PartitionLedger

/-- A timeline that keeps the starts of its partitions. -/
structure Kept where
  key : Key
  starts : Starts

namespace Kept

def empty (key : Key) (strategy : Strategy) : Kept := ⟨key, .empty strategy⟩

def add (t : Kept) (q : Partition) : Except PartitionError (Kept × Except TimelineError Bool) :=
  if q.period = t.key.period then do
    let (starts, changed) ← t.starts.add t.key.period q.start
    return ({ t with starts }, .ok changed)
  else return (t, .error (.invalidPartition t.key q))

def drop (t : Kept) (q : Partition) : Except PartitionError (Kept × Except TimelineError Bool) :=
  if q.period = t.key.period then do
    match ← t.starts.drop? t.key.period q.start with
    | some (starts, changed) => return ({ t with starts }, .ok changed)
    | none => return (t, .error (.dropUnsupported t.key))
  else return (t, .error (.invalidPartition t.key q))

def addAll (t : Kept) : List Partition → Except PartitionError (Kept × Except TimelineError Bool)
  | [] => return (t, .ok false)
  | q :: rest => do
    match ← t.add q with
    | (t, .error e) => return (t, .error e)
    | (t, .ok changed) =>
      let (t, outcome) ← t.addAll rest
      return (t, outcome.map (changed || ·))

/-- Properties are read as partitions are, and their starts are kept. -/
def load (t : Kept) (bag : Bag) : Kept × Except TimelineError Bool :=
  match Contents.decode t.key.period bag t.starts.strategy with
  | .ok contents => ({ t with starts := contents.starts }, .ok (contents.starts.isConsistent t.key.period))
  | .error e => (empty t.key t.starts.strategy, .error (.corrupt t.key e))

def edit (t : Kept) : Edit → Except PartitionError (Kept × Except TimelineError Bool)
  | .add q => t.add q
  | .addAll qs => t.addAll qs
  | .addRange r => t.addAll r.toList
  | .drop q => t.drop q
  | .load bag => return t.load bag

/-- The timeline after a sequence of changes, of which those that are refused count as well. -/
def edits (t : Kept) (es : List Edit) : Except PartitionError Kept :=
  es.foldlM (fun t e => return (← t.edit e).1) t

def has (t : Kept) (q : Partition) : Bool := q.period = t.key.period && t.starts.has q.start

def first? (t : Kept) : Except PartitionError (Option Partition) :=
  t.starts.first?.mapM (Partition.holding t.key.period)

def latest? (t : Kept) : Except PartitionError (Option Partition) :=
  t.starts.latest?.mapM (Partition.holding t.key.period)

def holes (t : Kept) : Except PartitionError (List Partition) :=
  t.starts.holes.mapM (Partition.holding t.key.period)

/-- A cursor over the partitions in a range, which must be of the timeline's period. -/
def cursorWithin (t : Kept) (r : Range) : Except TimelineError Starts.Cursor :=
  if r.period = t.key.period then return t.starts.cursor.within r
  else .error (.invalidPartition t.key r.lowerEnd)

def encode (t : Kept) : Bag := t.starts.encode t.key.period

end Kept
end PartitionLedger

import PartitionLedger.Timeline.Cursor
import PartitionLedger.Timeline.Encoding

/-!
Timelines that keep the first and the latest partition, and the missing ones between them as holes.
The room they take is that of the holes.

Stored properties may bring ends in the wrong order, and holes that do not lie between the ends. The
operations are the same for such timelines.
-/
namespace PartitionLedger

structure Holed (p : Period) where
  ends : Option (Ends p)
  holes : CellSet p
deriving DecidableEq

namespace Holed
variable {p : Period}

def empty : Holed p := ⟨none, ∅⟩

/-- Makes a partition exist; says whether that is a change. A partition outside the ends becomes an
end, and all that lie between it and the old end become holes. -/
def add (t : Holed p) (c : Cell p) : Holed p × Bool :=
  match t.ends with
  | none => (⟨some ⟨c, c⟩, ∅⟩, true)
  | some ⟨first, latest⟩ =>
    if c < first then (⟨some ⟨c, latest⟩, t.holes.fillBetween c first⟩, true)
    else if latest < c then (⟨some ⟨first, c⟩, t.holes.fillBetween latest c⟩, true)
    else if c ∈ t.holes then (⟨t.ends, t.holes.erase c⟩, true)
    else (t, false)

/-- Steps on from `c`, which is `n` steps from the other end, until a cell that is no hole or the
other end. -/
def inward (holes : CellSet p) (step : Cell p → Option (Cell p)) (c : Cell p) : Nat → Cell p
  | 0 => c
  | n + 1 =>
    match step c with
    | some d => if d ∈ holes then inward holes step d n else d
    | none => c

/-- Makes a partition not exist; says whether that is a change. An end that is dropped moves inward
past the holes next to it, and those are forgotten. -/
def drop (t : Holed p) (c : Cell p) : Holed p × Bool :=
  match t.ends with
  | none => (t, false)
  | some ⟨first, latest⟩ =>
    if c < first ∨ latest < c ∨ c ∈ t.holes then (t, false)
    else if first = latest then (empty, true)
    else if c = first then
      let stop := inward t.holes Cell.next? c (c.distance latest)
      (⟨some ⟨stop, latest⟩, t.holes.filter fun hole => ¬ (c < hole ∧ hole < stop)⟩, true)
    else if c = latest then
      let stop := inward t.holes Cell.previous? c (c.distance first)
      (⟨some ⟨first, stop⟩, t.holes.filter fun hole => ¬ (stop < hole ∧ hole < c)⟩, true)
    else (⟨t.ends, t.holes.insert c⟩, true)

def has (t : Holed p) (c : Cell p) : Bool :=
  (t.ends.any fun ends => ends.first ≤ c ∧ c ≤ ends.latest) && c ∉ t.holes

def first? (t : Holed p) : Option (Cell p) := t.ends.map Ends.first

def latest? (t : Holed p) : Option (Cell p) := t.ends.map Ends.latest

def cursor (t : Holed p) : Cursor p := ⟨.dense t.holes, t.first?, t.latest?⟩

/-- The ends are in order and the holes strictly between them; an empty timeline has no holes. -/
def Consistent (t : Holed p) : Prop :=
  match t.ends with
  | some ⟨first, latest⟩ => first ≤ latest ∧ ∀ hole ∈ t.holes, first < hole ∧ hole < latest
  | none => ∀ hole, hole ∉ t.holes

def encode (t : Holed p) : Bag :=
  let holes := (Property.holes.name, t.holes.write)
  match t.ends with
  | some ⟨first, latest⟩ => OrderedMap.ofList
      [holes, (Property.first.name, first.text), (Property.latest.name, latest.text)]
  | none => OrderedMap.ofList [holes]

def decode (bag : Bag) : Except Corruption (Holed p) := do
  let ends ← Bag.readEnds? p bag
  let holes ← Bag.readList p bag .holes
  return ⟨ends, holes⟩

end Holed
end PartitionLedger

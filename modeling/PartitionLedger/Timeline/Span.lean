import PartitionLedger.Timeline.Cursor
import PartitionLedger.Timeline.Encoding

/-!
Timelines that keep the first and the latest partition only, and take every partition between them
to exist. They fit tables that are refreshed without pause; nothing can be dropped from them.
-/
namespace PartitionLedger

structure Span (p : Period) where
  ends : Option (Ends p)
deriving DecidableEq

namespace Span
variable {p : Period}

def empty : Span p := ⟨none⟩

/-- Makes a partition exist, with all between it and the ends; says whether that is a change. -/
def add (t : Span p) (c : Cell p) : Span p × Bool :=
  match t.ends with
  | none => (⟨some ⟨c, c⟩⟩, true)
  | some ⟨first, latest⟩ =>
    if c < first then (⟨some ⟨c, latest⟩⟩, true)
    else if latest < c then (⟨some ⟨first, c⟩⟩, true)
    else (t, false)

def has (t : Span p) (c : Cell p) : Bool :=
  t.ends.any fun ends => ends.first ≤ c ∧ c ≤ ends.latest

def first? (t : Span p) : Option (Cell p) := t.ends.map Ends.first

def latest? (t : Span p) : Option (Cell p) := t.ends.map Ends.latest

def cursor (t : Span p) : Cursor p := ⟨.dense ∅, t.first?, t.latest?⟩

/-- The ends are in order. -/
def Consistent (t : Span p) : Prop :=
  match t.ends with
  | some ⟨first, latest⟩ => first ≤ latest
  | none => True

def encode (t : Span p) : Bag :=
  match t.ends with
  | some ⟨first, latest⟩ =>
    OrderedMap.ofList [(Property.first.name, first.text), (Property.latest.name, latest.text)]
  | none => ∅

def decode (bag : Bag) : Except Corruption (Span p) := (Bag.readEnds? p bag).map (⟨·⟩)

end Span
end PartitionLedger

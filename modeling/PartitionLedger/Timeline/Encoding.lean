import PartitionLedger.Partition.Canonical
import PartitionLedger.Partition.CellSet
import PartitionLedger.Timeline.Error

/-!
Partitions as the values of properties: one canonical text, or canonical texts in ascending order
with commas between them. Lists are read in that form only.
-/
namespace PartitionLedger

/-- The first and the latest of a timeline's partitions. Nothing makes a stored pair ordered. -/
structure Ends (p : Period) where
  first : Cell p
  latest : Cell p
deriving DecidableEq

namespace CellSet

def write {p : Period} (cells : CellSet p) : String :=
  String.ofList (Text.join ',' (cells.toList.map fun c => c.text.toList))

end CellSet

namespace Bag

/-- The value of a property; an empty value counts as none. -/
def value? (bag : Bag) (property : Property) : Option String :=
  (bag.get? property.name).filter (· ≠ "")

variable (p : Period)

def readCell (property : Property) (value : String) : Except Corruption (Cell p) :=
  (Cell.read p value).mapError fun e => ⟨property, .notAPartition e⟩

/-- The partition stored under a property, if there is one. -/
def readOne? (bag : Bag) (property : Property) : Except Corruption (Option (Cell p)) :=
  match bag.value? property with
  | none => .ok none
  | some value => (readCell p property value).map some

/-- Reads the rest of a list, all of which must come after the cell `before` it. -/
def readElements (property : Property) (before : Option (Cell p)) :
    List (List Char) → Except Corruption { cells : CellSet p // ∀ b ∈ before, ∀ c ∈ cells, b < c }
  | [] => .ok ⟨∅, fun _ _ _ h => absurd h OrderedSet.not_mem_empty⟩
  | element :: rest =>
    if element = [] then .error ⟨property, .emptyElement⟩
    else do
      let text := String.ofList element
      let c ← readCell p property text
      if h : ∀ b ∈ before, b < c then
        let ⟨cells, after⟩ ← readElements property (some c) rest
        return ⟨⟨c :: cells.toList, .cons (after c rfl) cells.ascending⟩, fun b hb d hd => by
          obtain rfl | hd := List.mem_cons.mp hd
          · exact h b hb
          · exact Std.lt_trans (h b hb) (after c rfl d hd)⟩
      else .error ⟨property, .outOfOrder text⟩

/-- The list of partitions stored under a property, empty if there is none. -/
def readList (bag : Bag) (property : Property) : Except Corruption (CellSet p) :=
  match bag.value? property with
  | none => .ok ∅
  | some value => (readElements p property none (Text.pieces ',' value.toList)).map Subtype.val

/-- The two ends, of which both or neither must be stored. -/
def readEnds? (bag : Bag) : Except Corruption (Option (Ends p)) := do
  match ← readOne? p bag .first, ← readOne? p bag .latest with
  | some first, some latest => return some ⟨first, latest⟩
  | none, none => return none
  | some _, none => .error ⟨.latest, .missingWhile .first⟩
  | none, some _ => .error ⟨.first, .missingWhile .latest⟩

end Bag
end PartitionLedger

import PartitionLedger.Timeline.Cursor
import PartitionLedger.Timeline.Encoding

/-!
Timelines that keep every existing partition. Any pattern of gaps can be told, at the cost of room
for each partition.
-/
namespace PartitionLedger

structure Listed (p : Period) where
  partitions : CellSet p
deriving DecidableEq

namespace Listed
variable {p : Period}

def empty : Listed p := ⟨∅⟩

/-- Makes a partition exist; says whether that is a change. -/
def add (t : Listed p) (c : Cell p) : Listed p × Bool :=
  if c ∈ t.partitions then (t, false) else (⟨t.partitions.insert c⟩, true)

/-- Makes the partitions from `lower` on and before `upper` exist; says whether that is a change. -/
def addUpto (t : Listed p) (lower upper : Cell p) : Listed p × Bool :=
  let filled : Listed p := ⟨t.partitions.fill lower upper⟩
  (filled, filled ≠ t)

/-- Makes a partition not exist; says whether that is a change. -/
def drop (t : Listed p) (c : Cell p) : Listed p × Bool :=
  if c ∈ t.partitions then (⟨t.partitions.erase c⟩, true) else (t, false)

def has (t : Listed p) (c : Cell p) : Bool := c ∈ t.partitions

def first? (t : Listed p) : Option (Cell p) := t.partitions.first?

def latest? (t : Listed p) : Option (Cell p) := t.partitions.last?

def cursor (t : Listed p) : Cursor p := ⟨.explicit t.partitions, t.first?, t.latest?⟩

def encode (t : Listed p) : Bag := OrderedMap.ofList [(Property.partitions.name, t.partitions.write)]

def decode (bag : Bag) : Except Corruption (Listed p) := (Bag.readList p bag .partitions).map (⟨·⟩)

theorem mem_add {t : Listed p} {c x : Cell p} :
    x ∈ (t.add c).1.partitions ↔ x ∈ t.partitions ∨ x = c := by
  simp only [add]
  split
  · rename_i h
    exact ⟨.inl, fun hx => hx.elim id fun e => e ▸ h⟩
  · exact OrderedSet.mem_insert.trans or_comm

theorem add_of_mem {t : Listed p} {c : Cell p} (h : c ∈ t.partitions) : t.add c = (t, false) :=
  if_pos h

theorem add_changed {t : Listed p} {c : Cell p} : (t.add c).2 = decide (c ∉ t.partitions) := by
  simp only [add]
  split <;> simp [*]

end Listed
end PartitionLedger

import PartitionLedger.Partition.Range
import PartitionLedger.Timeline.Contents

/-!
Timelines: which partitions of a table exist, for one key.

Operations take partitions of any period. Changes refuse those of another period than the
timeline's, and questions find them absent. Main statement: adding a range is adding its partitions
one after the other.
-/
namespace PartitionLedger

structure Timeline where
  key : Key
  contents : Contents key.period
deriving DecidableEq

namespace Timeline

def empty (key : Key) (strategy : Strategy) : Timeline := ⟨key, .empty key.period strategy⟩

def strategy (t : Timeline) : Strategy := t.contents.strategy

/-- The partition as a cell of the timeline's period. -/
def cellOf (t : Timeline) (q : Partition) : Except TimelineError (Cell t.key.period) :=
  match q.cellIn? t.key.period with
  | some c => .ok c
  | none => .error (.invalidPartition t.key q)

def partitionOf (t : Timeline) (c : Cell t.key.period) : Partition := ⟨t.key.period, c⟩

/-- Makes a partition exist; says whether that is a change. -/
def add (t : Timeline) (q : Partition) : Timeline × Except TimelineError Bool :=
  match t.cellOf q with
  | .error e => (t, .error e)
  | .ok c =>
    let (contents, changed) := t.contents.add c
    ({ t with contents }, .ok changed)

/-- Makes a partition not exist; says whether that is a change. -/
def drop (t : Timeline) (q : Partition) : Timeline × Except TimelineError Bool :=
  match t.cellOf q with
  | .error e => (t, .error e)
  | .ok c =>
    match t.contents.drop? c with
    | some (contents, changed) => ({ t with contents }, .ok changed)
    | none => (t, .error (.dropUnsupported t.key))

/-- Makes partitions exist one after the other, up to the first that is refused; says whether any of
them is a change. -/
def addAll (t : Timeline) : List Partition → Timeline × Except TimelineError Bool
  | [] => (t, .ok false)
  | q :: rest =>
    match t.add q with
    | (t, .error e) => (t, .error e)
    | (t, .ok changed) =>
      let (t, outcome) := t.addAll rest
      (t, outcome.map (changed || ·))

/-- Makes the partitions of a range exist. That is `addAll` of them, but takes no list of them, so the
first partition of a vast range can be refused at once. -/
def addRange (t : Timeline) (r : Range) : Timeline × Except TimelineError Bool :=
  if r.isEmpty then (t, .ok false)
  else
    match t.cellOf r.lowerEnd, t.cellOf r.upperEnd with
    | .error e, _ | _, .error e => (t, .error e)
    | .ok lower, .ok upper =>
      let (contents, changed) := t.contents.addUpto lower upper
      ({ t with contents }, .ok changed)

def has (t : Timeline) (q : Partition) : Bool := (q.cellIn? t.key.period).any t.contents.has

def first? (t : Timeline) : Option Partition := t.contents.first?.map t.partitionOf

def latest? (t : Timeline) : Option Partition := t.contents.latest?.map t.partitionOf

def isEmpty (t : Timeline) : Bool := t.contents.first?.isNone

/-- The existing partitions in ascending order. -/
def toList (t : Timeline) : List Partition := t.contents.cursor.toList.map t.partitionOf

/-- Number of existing partitions. -/
def size (t : Timeline) : Nat := t.contents.cursor.size

/-- A cursor over the existing partitions in a range, which must be of the timeline's period. -/
def cursorWithin (t : Timeline) (r : Range) : Except TimelineError (Cursor t.key.period) := do
  let lower ← t.cellOf r.lowerEnd
  let upper ← t.cellOf r.upperEnd
  return t.contents.cursor.within lower upper

/-- The existing partitions in a range. -/
def toListWithin (t : Timeline) (r : Range) : Except TimelineError (List Partition) :=
  (t.cursorWithin r).map fun cursor => cursor.toList.map t.partitionOf

/-- The missing partitions that the timeline keeps. -/
def holes (t : Timeline) : List Partition :=
  match t.contents with
  | .holed h => h.holes.toList.map t.partitionOf
  | _ => []

def Consistent (t : Timeline) : Prop := t.contents.Consistent

instance (t : Timeline) : Decidable t.Consistent := inferInstanceAs (Decidable t.contents.Consistent)

def encode (t : Timeline) : Bag := t.contents.encode

/-- Replaces what the timeline holds by what properties stand for; says whether the result is
consistent. Properties that stand for nothing leave the timeline empty. -/
def load (t : Timeline) (bag : Bag) : Timeline × Except TimelineError Bool :=
  match Contents.decode t.key.period bag t.strategy with
  | .ok contents => ({ t with contents }, .ok (decide contents.Consistent))
  | .error e => (empty t.key t.strategy, .error (.corrupt t.key e))

theorem length_toList (t : Timeline) : t.toList.length = t.size := by
  rw [toList, List.length_map, Cursor.length_toList]
  rfl

theorem cellOf_partitionOf (t : Timeline) (c : Cell t.key.period) :
    t.cellOf (t.partitionOf c) = .ok c := by
  have : (t.partitionOf c).cellIn? t.key.period = some c := Partition.cellIn?_eq_some.mpr rfl
  rw [cellOf, this]

theorem cellOf_of_ne {t : Timeline} {q : Partition} (h : q.period ≠ t.key.period) :
    t.cellOf q = .error (.invalidPartition t.key q) := by
  simp only [cellOf, Partition.cellIn?, h, dite_false]

theorem add_partitionOf (t : Timeline) (c : Cell t.key.period) :
    t.add (t.partitionOf c) =
      ({ t with contents := (t.contents.add c).1 }, .ok (t.contents.add c).2) := by
  simp only [add, cellOf_partitionOf]

theorem addAll_run (t : Timeline) (c : Cell t.key.period) (n : Nat) :
    t.addAll ((c.run n).map t.partitionOf) =
      ({ t with contents := (t.contents.addRun false c n).1 },
        .ok (t.contents.addRun false c n).2) := by
  obtain ⟨key, contents⟩ := t
  induction n generalizing contents c with
  | zero => rfl
  | succ n ih =>
    simp only [Cell.run, List.map_cons, addAll, add_partitionOf, Contents.addRun, Bool.false_or]
    cases hd : c.next? with
    | none => simp [addAll, Except.map]
    | some d =>
      have rest : addAll ⟨key, (contents.add c).1⟩ ((d.run n).map (partitionOf ⟨key, contents⟩)) = _ :=
        ih (contents.add c).1 d
      dsimp only
      rw [Contents.addRun_changed, rest]
      rfl

theorem addRange_eq_addAll (t : Timeline) (r : Range) : t.addRange r = t.addAll r.toList := by
  obtain ⟨key, contents⟩ := t
  obtain ⟨p, lower, upper, ordered⟩ := r
  simp only [addRange, Range.isEmpty, Range.lowerEnd, Range.upperEnd, Range.toList, beq_iff_eq]
  split
  · rename_i h
    subst h
    simp [Cell.upto, Cell.run, addAll]
  · rename_i h
    by_cases same : p = key.period
    · subst same
      have at_lower := cellOf_partitionOf ⟨key, contents⟩ lower
      have at_upper := cellOf_partitionOf ⟨key, contents⟩ upper
      have run := addAll_run ⟨key, contents⟩ lower (upper.number - lower.number).toNat
      dsimp only [partitionOf] at at_lower at_upper run
      simp only [at_lower, at_upper, Contents.addUpto_eq_addRun]
      exact run.symm
    · obtain ⟨n, hn⟩ : ∃ n, (upper.number - lower.number).toNat = n + 1 := by
        have : lower.number ≠ upper.number := fun e => h (Cell.ext_number e)
        rw [Cell.le_def] at ordered
        exact ⟨(upper.number - lower.number).toNat - 1, by omega⟩
      have refused := cellOf_of_ne (t := ⟨key, contents⟩) (q := ⟨p, lower⟩) same
      simp only [refused, Cell.upto, hn, Cell.run, List.map_cons, addAll, add]

end Timeline
end PartitionLedger

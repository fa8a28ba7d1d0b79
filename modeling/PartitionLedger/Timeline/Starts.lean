import PartitionLedger.Partition.Range
import PartitionLedger.Timeline.Contents

/-!
What a timeline holds, kept by the instants its partitions start at. Whenever one of them is given as a
partition, or the next one or the one before is stepped to, the partition that holds the instant is looked
up, which fails for an instant outside the years of partitions. So all may fail that does more than compare
the instants or write them.

Nothing in what is kept says that an instant is where a partition starts.
-/
namespace PartitionLedger

namespace Instant
variable {i : Instant}

/-- How far it is from an instant to `upper`. Where there is no instant, no way is left. -/
def secondsTo (upper : Instant) : Option Instant → Nat
  | none => 0
  | some i => (upper.seconds + 1 - i.seconds).toNat

theorem secondsTo_lt {upper : Instant} {after : Option Instant} (hle : i ≤ upper)
    (hafter : ∀ j ∈ after, i.seconds < j.seconds) :
    upper.secondsTo after < upper.secondsTo (some i) := by
  have hseconds := seconds_le_of_le hle
  cases after with
  | none =>
    simp only [secondsTo]
    omega
  | some j =>
    have hlt := hafter j rfl
    simp only [secondsTo]
    omega

end Instant

namespace Period
variable {p : Period} {i : Instant} {after : Option Instant}

/-- Where the partition after the one that holds an instant starts, none after the last partition. -/
def startAfter? (p : Period) (i : Instant) : Except PartitionError (Option Instant) := do
  let q ← Partition.holding p i
  return q.next?.map Partition.start

/-- Where the partition before the one that holds an instant starts, none before the first partition. -/
def startBefore? (p : Period) (i : Instant) : Except PartitionError (Option Instant) := do
  let q ← Partition.holding p i
  return q.previous?.map Partition.start

theorem lt_of_startAfter? (h : p.startAfter? i = .ok after) : ∀ j ∈ after, i.seconds < j.seconds := by
  intro j hj
  simp only [startAfter?, Partition.holding] at h
  cases hc : Cell.holding? p i with
  | none =>
    rw [hc] at h
    cases h
  | some c =>
    rw [hc] at h
    obtain rfl := Except.ok.inj h
    obtain ⟨q, hq, rfl⟩ := Option.map_eq_some_iff.mp hj
    obtain ⟨d, hd, rfl⟩ := Option.map_eq_some_iff.mp hq
    have hcell : c.number = p.cellAt i.seconds := Cell.ofNumber?_eq_some.mp hc
    have hnext : d.number = p.cellAt i.seconds + 1 := hcell ▸ Cell.next?_eq_some.mp hd
    change i.seconds < p.startOf d.number
    rw [hnext]
    exact p.lt_startOf_cellAt_succ i.seconds

end Period

abbrev InstantSet := OrderedSet Instant

/-- The texts of the partitions that start at the instants, with commas between them. -/
def InstantSet.write (p : Period) (starts : InstantSet) : String :=
  String.ofList (Text.join ',' (starts.toList.map fun i => (p.write i).toList))

/-- What a timeline holds, kept by where its partitions start. Ends are the first and the latest start. -/
inductive Starts where
  | listed (partitions : InstantSet)
  | holed (ends : Option (Instant × Instant)) (holes : InstantSet)
  | span (ends : Option (Instant × Instant))

namespace Starts

/-- The starts from `next` on that come before `upper`, each found from the one before it. -/
def upto (p : Period) (upper : Instant) (next : Option Instant) : Except PartitionError (List Instant) :=
  match next with
  | none => .ok []
  | some i =>
    match _h : p.startAfter? i with
    | .error e => .error e
    | .ok after => if i < upper then (upto p upper after).map (i :: ·) else .ok []
termination_by upper.secondsTo next
decreasing_by exact Instant.secondsTo_lt (Std.le_of_lt ‹_›) (Period.lt_of_startAfter? _h)

/-- Makes holes of all the starts after `lower` and before `upper`. -/
def punch (p : Period) (lower upper : Instant) (holes : InstantSet) : Except PartitionError InstantSet := do
  let next ← p.startAfter? lower
  let missing ← upto p upper next
  return missing.foldl OrderedSet.insert holes

/-- Steps on from `i` until a start that is no hole or `bound`, and forgets the holes on the way. -/
def collapse (step : Instant → Except PartitionError (Option Instant)) (bound : Instant)
    (holes : InstantSet) (i : Instant) : Except PartitionError (Instant × InstantSet) := do
  match ← step i with
  | none => return (i, holes)
  | some j =>
    if j ≠ bound ∧ j ∈ holes then collapse step bound (holes.erase j) j
    else return (j, holes)
termination_by holes.size
decreasing_by exact OrderedSet.size_erase_lt (And.right ‹_›)

def empty : Strategy → Starts
  | .storeAll => listed ∅
  | .endsAndHoles => holed none ∅
  | .continuous => span none

def strategy : Starts → Strategy
  | listed _ => .storeAll
  | holed _ _ => .endsAndHoles
  | span _ => .continuous

def add (p : Period) (i : Instant) : Starts → Except PartitionError (Starts × Bool)
  | listed partitions =>
    if i ∈ partitions then return (listed partitions, false)
    else return (listed (partitions.insert i), true)
  | holed none _ => return (holed (some (i, i)) ∅, true)
  | holed (some (first, latest)) holes =>
    if i < first then do
      let holes ← punch p i first holes
      return (holed (some (i, latest)) holes, true)
    else if latest < i then do
      let holes ← punch p latest i holes
      return (holed (some (first, i)) holes, true)
    else if i ∈ holes then return (holed (some (first, latest)) (holes.erase i), true)
    else return (holed (some (first, latest)) holes, false)
  | span none => return (span (some (i, i)), true)
  | span (some (first, latest)) =>
    if i < first then return (span (some (i, latest)), true)
    else if latest < i then return (span (some (first, i)), true)
    else return (span (some (first, latest)), false)

/-- None where nothing can be dropped. -/
def drop? (p : Period) (i : Instant) : Starts → Except PartitionError (Option (Starts × Bool))
  | listed partitions =>
    if i ∈ partitions then return some (listed (partitions.erase i), true)
    else return some (listed partitions, false)
  | holed none holes => return some (holed none holes, false)
  | holed (some (first, latest)) holes =>
    if i < first ∨ latest < i ∨ i ∈ holes then return some (holed (some (first, latest)) holes, false)
    else if first = latest then return some (holed none ∅, true)
    else if i = first then do
      let (stop, holes) ← collapse p.startAfter? latest holes i
      return some (holed (some (stop, latest)) holes, true)
    else if i = latest then do
      let (stop, holes) ← collapse p.startBefore? first holes i
      return some (holed (some (first, stop)) holes, true)
    else return some (holed (some (first, latest)) (holes.insert i), true)
  | span _ => return none

/-- The instant is an end or lies between the ends, if there are any. -/
def isWithin (i : Instant) (ends : Option (Instant × Instant)) : Bool :=
  ends.any fun (first, latest) => first ≤ i ∧ i ≤ latest

def has (i : Instant) : Starts → Bool
  | listed partitions => i ∈ partitions
  | holed ends holes => isWithin i ends && i ∉ holes
  | span ends => isWithin i ends

def first? : Starts → Option Instant
  | listed partitions => partitions.first?
  | holed ends _ => ends.map Prod.fst
  | span ends => ends.map Prod.fst

def latest? : Starts → Option Instant
  | listed partitions => partitions.last?
  | holed ends _ => ends.map Prod.snd
  | span ends => ends.map Prod.snd

def holes : Starts → List Instant
  | holed _ holes => holes.toList
  | _ => []

/-- The ends, if there are any. -/
def bothEnds : Option (Instant × Instant) → List Instant
  | some (first, latest) => [first, latest]
  | none => []

/-- All instants that are kept. -/
def instants : Starts → List Instant
  | listed partitions => partitions.toList
  | holed ends holes => bothEnds ends ++ holes.toList
  | span ends => bothEnds ends

/-- Every instant that is kept is where a partition starts, the ends are in order and the holes strictly
between them. -/
def isConsistent (p : Period) : Starts → Bool
  | listed partitions => partitions.toList.all (p.Aligned ·)
  | holed none holes => holes.isEmpty
  | holed (some (first, latest)) holes =>
    first ≤ latest ∧ p.Aligned first ∧ p.Aligned latest ∧
      holes.toList.all fun hole => first < hole ∧ hole < latest ∧ p.Aligned hole
  | span none => true
  | span (some (first, latest)) => first ≤ latest ∧ p.Aligned first ∧ p.Aligned latest

def encode (p : Period) : Starts → Bag
  | listed partitions => OrderedMap.ofList [(Property.partitions.name, partitions.write p)]
  | holed none holes => OrderedMap.ofList [(Property.holes.name, holes.write p)]
  | holed (some (first, latest)) holes => OrderedMap.ofList
      [(Property.holes.name, holes.write p), (Property.first.name, p.write first),
        (Property.latest.name, p.write latest)]
  | span none => ∅
  | span (some (first, latest)) =>
    OrderedMap.ofList [(Property.first.name, p.write first), (Property.latest.name, p.write latest)]

/-- What a cursor goes over. -/
inductive Source where
  | explicit (members : InstantSet)
  | dense (holes : InstantSet)

/-- The first start from `next` to `last` that is no hole, and the boundary to go on from. -/
def skipHoles (p : Period) (holes : InstantSet) (last : Instant) (next : Option Instant) :
    Option (Instant × Option Instant) :=
  match next with
  | none => none
  | some i =>
    if i ≤ last then
      if i ∈ holes then skipHoles p holes last (p.offset i 1) else some (i, p.offset i 1)
    else none
termination_by last.secondsTo next
decreasing_by exact Instant.secondsTo_lt ‹_› fun _ hj => Period.lt_of_offset hj

/-- The first start of a source from `next` to `last`, and the boundary to go on from. The boundary may lie
outside the years of partitions. -/
def Source.find? (p : Period) (next last : Instant) : Source → Option (Instant × Option Instant)
  | explicit members =>
    ((members.firstFrom? next).filter (· ≤ last)).map fun found => (found, p.offset found 1)
  | dense holes => skipHoles p holes last (some next)

structure Cursor where
  source : Source
  next : Option Instant
  last : Option Instant

namespace Cursor

/-- The next partition, if there is one, and the cursor after it. -/
def step (p : Period) (cursor : Cursor) : Except PartitionError (Option Partition × Cursor) :=
  match cursor.next, cursor.last with
  | some next, some last =>
    match cursor.source.find? p next last with
    | some (found, after) => do
      let q ← Partition.holding p found
      return (some q, { cursor with next := after })
    | none => return (none, { cursor with next := none })
  | _, _ => return (none, cursor)

/-- What a number of steps gives, and the cursor after them. -/
def walk (p : Period) (cursor : Cursor) : Nat → Except PartitionError (List Partition × Cursor)
  | 0 => return ([], cursor)
  | n + 1 => do
    let (given, cursor) ← cursor.step p
    let (rest, cursor) ← cursor.walk p n
    return (given.toList ++ rest, cursor)

/-- What is left of the cursor within a range. -/
def within (r : Range) (cursor : Cursor) : Cursor :=
  match r.upperEnd.previous? with
  | some stop =>
    if r.isEmpty then { cursor with next := none }
    else
      { cursor with
        next := cursor.next.map (max · r.lowerEnd.start), last := cursor.last.map (min · stop.start) }
  | none => { cursor with next := none }

end Cursor

def cursor : Starts → Cursor
  | listed partitions => ⟨.explicit partitions, partitions.first?, partitions.last?⟩
  | holed ends holes => ⟨.dense holes, ends.map Prod.fst, ends.map Prod.snd⟩
  | span ends => ⟨.dense ∅, ends.map Prod.fst, ends.map Prod.snd⟩

end Starts

def Ends.starts {p : Period} (ends : Ends p) : Instant × Instant := (ends.first.start, ends.latest.start)

/-- Where the cells of a set start. -/
def CellSet.starts {p : Period} (cells : CellSet p) : InstantSet :=
  ⟨cells.toList.map Cell.start,
    List.pairwise_map.mpr (cells.ascending.imp fun h => Cell.start_lt_iff.mpr h)⟩

/-- Where the partitions start that are kept as cells. -/
def Contents.starts {p : Period} : Contents p → Starts
  | listed t => .listed (CellSet.starts t.partitions)
  | holed t => .holed (t.ends.map Ends.starts) (CellSet.starts t.holes)
  | span t => .span (t.ends.map Ends.starts)

end PartitionLedger

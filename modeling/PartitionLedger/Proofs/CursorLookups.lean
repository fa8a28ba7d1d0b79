import PartitionLedger.Proofs.Lookups

/-!
Cursors over starts step as those over cells do. After the last partition they go on from a boundary outside
the years of partitions, at which nothing is looked up: it lies after all that is still to come.
-/
namespace PartitionLedger

def Source.starts {p : Period} : Source p → Starts.Source
  | explicit members => .explicit (CellSet.starts members)
  | dense holes => .dense (CellSet.starts holes)

def Cursor.starts {p : Period} (cursor : Cursor p) : Starts.Cursor :=
  ⟨cursor.source.starts, cursor.next.map Cell.start, cursor.last.map Cell.start⟩

/-- The instant is where the cell starts. Where there is no cell any more, there is no instant or it comes
after all cells. -/
def Ahead {p : Period} (next : Option Instant) (cell : Option (Cell p)) : Prop :=
  next = cell.map Cell.start ∨ cell = none ∧ ∃ i, next = some i ∧ ∀ c : Cell p, c.start < i

/-- The boundary after the start of a cell is the start of the next one, if there is one. -/
theorem ahead_offset {p : Period} (c : Cell p) : Ahead (p.offset c.start 1) c.next? := by
  obtain ⟨e, he, hseconds, hnanos⟩ := c.exists_next_boundary
  cases hd : c.next? with
  | some d =>
    have hnumber := Cell.next?_eq_some.mp hd
    refine Or.inl ?_
    rw [he, Option.map_some]
    exact congrArg some (Instant.ext_whole (by rw [hseconds, ← hnumber]; rfl) hnanos rfl)
  | none =>
    refine Or.inr ⟨rfl, e, he, ?_⟩
    intro d
    have hlast : d.number ≤ c.number := by
      refine Int.not_lt.mp fun hlt => ?_
      obtain ⟨_, hnext, -⟩ := Cell.next?_of_lt (a := c) (b := d) hlt
      rw [hd] at hnext
      cases hnext
    rw [Instant.lt_whole_iff hnanos, hseconds]
    exact p.startOf_lt_iff.mpr (by omega)

theorem Ahead.after {p : Period} {next : Option Instant} {cell : Option (Cell p)} {c : Cell p}
    (h : Ahead next cell) (hc : ∀ d ∈ cell, c < d) : ∀ i ∈ next, c.start < i := by
  intro i hi
  rcases h with rfl | ⟨-, j, rfl, hj⟩
  · obtain ⟨d, hd, rfl⟩ := Option.map_eq_some_iff.mp hi
    exact Cell.start_lt_iff.mpr (hc d hd)
  · obtain rfl := Option.some.inj hi
    exact hj c

namespace Starts
variable {p : Period} {holes : CellSet p} {last c : Cell p}

theorem skipHoles_after {holes : InstantSet} {next : Option Instant} (h : ∀ i ∈ next, last.start < i) :
    skipHoles p holes last.start next = none := by
  cases next with
  | none => rw [skipHoles]
  | some i => rw [skipHoles, if_neg (Std.not_le.mpr (h i rfl))]

/-- Up to the last cell a start is passed if the cell is a hole, and found if not. -/
theorem skipHoles_of_le (h : c ≤ last) :
    skipHoles p holes.starts last.start (some c.start) =
      if c ∈ holes then skipHoles p holes.starts last.start (p.offset c.start 1)
      else some (c.start, p.offset c.start 1) := by
  rw [skipHoles, if_pos (Cell.start_le_iff.mpr h)]
  simp only [CellSet.start_mem_starts]

/-- Both pass the same holes. The distance to the last cell is what the induction is on. -/
theorem skipHoles_start {n : Nat} (h : last.number = c.number + n) :
    skipHoles p holes.starts last.start (some c.start) =
      (Source.skipHoles holes c n).map fun found => (found.start, p.offset found.start 1) := by
  have hle : c ≤ last := by
    rw [Cell.le_def]
    omega
  rw [skipHoles_of_le hle]
  induction n generalizing c with
  | zero =>
    simp only [Source.skipHoles]
    split
    · refine skipHoles_after ((ahead_offset c).after ?_)
      intro d hd
      have hnumber := Cell.next?_eq_some.mp hd
      rw [Cell.lt_def]
      omega
    · rfl
  | succ n ih =>
    obtain ⟨d, hd, hnumber, hnext⟩ := Cell.next?_of_lt (a := c) (b := last) (by rw [Cell.lt_def]; omega)
    simp only [Source.skipHoles, hd]
    split
    · have hoffset : p.offset c.start 1 = some d.start := by
        rcases ahead_offset c with ho | ⟨hnone, -⟩
        · rw [ho, hd, Option.map_some]
        · rw [hd] at hnone
          cases hnone
      rw [hoffset, skipHoles_of_le hnext]
      exact ih (by omega) hnext
    · rfl

theorem find?_start (source : PartitionLedger.Source p) (next last : Cell p) :
    source.starts.find? p next.start last.start =
      (source.find? next last).map fun found => (found.start, p.offset found.start 1) := by
  cases source with
  | explicit members =>
    simp only [Source.starts, Source.find?, PartitionLedger.Source.starts, PartitionLedger.Source.find?,
      CellSet.firstFrom?_starts, Option.filter_map, Option.map_map]
    simp only [Function.comp_def, Cell.start_le_iff]
  | dense holes =>
    simp only [Source.find?, PartitionLedger.Source.starts, PartitionLedger.Source.find?]
    split
    · rename_i hle
      refine skipHoles_start ?_
      rw [Cell.le_def] at hle
      simp only [Cell.distance]
      omega
    · rename_i hle
      refine skipHoles_after ?_
      rintro _ ⟨⟩
      exact Cell.start_lt_iff.mpr (Std.not_le.mp hle)

/-- From an instant after all cells nothing is found. -/
theorem find?_after {i : Instant} (source : PartitionLedger.Source p) (last : Cell p)
    (h : ∀ c : Cell p, c.start < i) : source.starts.find? p i last.start = none := by
  cases source with
  | explicit members =>
    have hnone : (CellSet.starts members).firstFrom? i = none := by
      refine List.find?_eq_none.mpr ?_
      intro j hj
      obtain ⟨c, -, rfl⟩ := CellSet.mem_starts.mp hj
      exact fun hle => Std.not_lt.mpr (of_decide_eq_true hle) (h c)
    simp only [Source.find?, PartitionLedger.Source.starts, hnone]
    rfl
  | dense holes =>
    refine skipHoles_after ?_
    rintro _ ⟨⟩
    exact h last

/-- A cursor over starts has the same to come as a cursor over cells. -/
structure Cursor.Agrees (kept : Starts.Cursor) (cursor : PartitionLedger.Cursor p) : Prop where
  source : kept.source = cursor.source.starts
  next : Ahead kept.next cursor.next
  last : kept.last = cursor.last.map Cell.start

namespace Cursor
variable {kept : Starts.Cursor} {cursor : PartitionLedger.Cursor p}

theorem agrees_starts (cursor : PartitionLedger.Cursor p) : Agrees cursor.starts cursor :=
  ⟨rfl, Or.inl rfl, rfl⟩

/-- What a step does that finds nothing: the cursor is at its end. -/
theorem step_of_find?_eq_none {next last : Instant} (source : Source)
    (h : source.find? p next last = none) :
    step p ⟨source, some next, some last⟩ = .ok (none, ⟨source, none, some last⟩) := by
  simp only [step, h]
  rfl

/-- What a step does that finds the start of a cell. -/
theorem step_of_find?_eq_some {next last : Instant} {after : Option Instant} {found : Cell p}
    (source : Source) (h : source.find? p next last = some (found.start, after)) :
    step p ⟨source, some next, some last⟩ = .ok (some ⟨p, found⟩, ⟨source, after, some last⟩) := by
  simp only [step, h, Partition.holding_start]
  rfl

/-- A step looks up the next cell, or nothing. -/
theorem Agrees.step (h : Agrees kept cursor) :
    ∃ (given : Option (Cell p)) (after : Cursor) (rest : PartitionLedger.Cursor p),
      kept.step p = .ok (given.map (⟨p, ·⟩), after) ∧ Agrees after rest ∧
      cursor.toList = given.toList ++ rest.toList ∧ (given = none → rest.toList = []) := by
  obtain ⟨source, next, last⟩ := cursor
  obtain ⟨_, keptNext, _⟩ := kept
  obtain ⟨rfl, hnext, rfl⟩ := h
  have hended : Agrees ⟨source.starts, none, last.map Cell.start⟩ ⟨source, none, last⟩ :=
    ⟨rfl, Or.inl rfl, rfl⟩
  cases last with
  | none =>
    refine ⟨none, _, ⟨source, next, none⟩, ?_, ⟨rfl, hnext, rfl⟩, ?_, ?_⟩
    · cases keptNext <;> rfl
    · cases next <;> rfl
    · cases next <;> exact fun _ => rfl
  | some last =>
    rcases hnext with rfl | ⟨rfl, i, rfl, hi⟩
    · cases next with
      | none => exact ⟨none, _, _, rfl, hended, rfl, fun _ => rfl⟩
      | some next =>
        have hfind := find?_start source next last
        cases hcell : source.find? next last with
        | none =>
          rw [hcell] at hfind
          refine ⟨none, _, _, step_of_find?_eq_none _ hfind, hended, ?_, fun _ => rfl⟩
          exact PartitionLedger.Source.find?_eq_none hcell
        | some found =>
          rw [hcell] at hfind
          refine ⟨some found, _, ⟨source, found.next?, some last⟩, step_of_find?_eq_some _ hfind,
            ⟨rfl, ahead_offset found, rfl⟩, ?_, nofun⟩
          simp [PartitionLedger.Cursor.toList_eq_step ⟨source, some next, some last⟩,
            PartitionLedger.Cursor.step?, hcell]
    · exact ⟨none, _, _, step_of_find?_eq_none _ (find?_after source last hi), hended, rfl, fun _ => rfl⟩

/-- Any number of steps gives as many of the cells that are to come, or all of them. -/
theorem Agrees.walk (h : Agrees kept cursor) (n : Nat) :
    ∃ (after : Cursor) (rest : PartitionLedger.Cursor p),
      kept.walk p n = .ok ((cursor.toList.take n).map (⟨p, ·⟩), after) ∧ Agrees after rest := by
  induction n generalizing kept cursor with
  | zero => exact ⟨kept, cursor, rfl, h⟩
  | succ n ih =>
    obtain ⟨given, after, rest, hstep, hafter, hlist, hend⟩ := h.step
    obtain ⟨last, left, hwalk, hlast⟩ := ih hafter
    refine ⟨last, left, ?_, hlast⟩
    simp only [Cursor.walk, hstep, ok_bind, hwalk, hlist]
    cases given with
    | none =>
      simp only [hend rfl, List.take_nil]
      rfl
    | some c => rfl

end Cursor
end Starts
end PartitionLedger

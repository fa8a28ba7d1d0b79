import PartitionLedger.Timeline.Holed
import PartitionLedger.Timeline.Listed
import PartitionLedger.Timeline.Span

/-!
What a timeline holds, whichever strategy it is kept by.

Main statement: `addUpto`, which fills a list at once, does what adding cell by cell does.
-/
namespace PartitionLedger

inductive Contents (p : Period) where
  | listed (t : Listed p)
  | holed (t : Holed p)
  | span (t : Span p)
deriving DecidableEq

namespace Contents
variable {p : Period}

def empty (p : Period) : Strategy → Contents p
  | .storeAll => listed Listed.empty
  | .endsAndHoles => holed Holed.empty
  | .continuous => span Span.empty

def strategy : Contents p → Strategy
  | listed _ => .storeAll
  | holed _ => .endsAndHoles
  | span _ => .continuous

def add (t : Contents p) (c : Cell p) : Contents p × Bool :=
  match t with
  | listed t => (t.add c).map listed id
  | holed t => (t.add c).map holed id
  | span t => (t.add c).map span id

/-- Makes `n` partitions from `c` on exist, one after the other; says whether any of them is a change,
or one before them was. -/
def addRun (t : Contents p) (changed : Bool) (c : Cell p) : Nat → Contents p × Bool
  | 0 => (t, changed)
  | n + 1 =>
    let (t, new) := t.add c
    match c.next? with
    | some d => t.addRun (changed || new) d n
    | none => (t, changed || new)

/-- Makes the partitions from `lower` on and before `upper` exist, as by adding them one after the
other; says whether that is a change. -/
def addUpto (t : Contents p) (lower upper : Cell p) : Contents p × Bool :=
  match t with
  | listed t => (t.addUpto lower upper).map listed id
  | t => t.addRun false lower (upper.number - lower.number).toNat

/-- None where nothing can be dropped. -/
def drop? (t : Contents p) (c : Cell p) : Option (Contents p × Bool) :=
  match t with
  | listed t => some ((t.drop c).map listed id)
  | holed t => some ((t.drop c).map holed id)
  | span _ => none

def has : Contents p → Cell p → Bool
  | listed t => t.has
  | holed t => t.has
  | span t => t.has

def first? : Contents p → Option (Cell p)
  | listed t => t.first?
  | holed t => t.first?
  | span t => t.first?

def latest? : Contents p → Option (Cell p)
  | listed t => t.latest?
  | holed t => t.latest?
  | span t => t.latest?

def cursor : Contents p → Cursor p
  | listed t => t.cursor
  | holed t => t.cursor
  | span t => t.cursor

/-- Any list of partitions is consistent; ends must be in order and holes between them. -/
def Consistent : Contents p → Prop
  | listed _ => True
  | holed t => t.Consistent
  | span t => t.Consistent

def encode : Contents p → Bag
  | listed t => t.encode
  | holed t => t.encode
  | span t => t.encode

/-- What properties stored by a strategy stand for. -/
def decode (p : Period) (bag : Bag) : Strategy → Except Corruption (Contents p)
  | .storeAll => (Listed.decode bag).map listed
  | .endsAndHoles => (Holed.decode bag).map holed
  | .continuous => (Span.decode bag).map span

instance : DecidablePred (Holed.Consistent (p := p)) := fun t => by
  unfold Holed.Consistent
  split
  · exact inferInstanceAs (Decidable (_ ∧ ∀ hole ∈ t.holes.toList, _))
  · exact decidable_of_iff t.holes.isEmpty OrderedSet.isEmpty_iff

instance : DecidablePred (Span.Consistent (p := p)) := fun t => by
  unfold Span.Consistent
  split <;> infer_instance

instance : DecidablePred (Consistent (p := p))
  | listed _ => inferInstanceAs (Decidable True)
  | holed t => inferInstanceAs (Decidable t.Consistent)
  | span t => inferInstanceAs (Decidable t.Consistent)

theorem addRun_changed (t : Contents p) (changed : Bool) (c : Cell p) (n : Nat) :
    t.addRun changed c n = (t.addRun false c n).map id (changed || ·) := by
  induction n generalizing t changed c with
  | zero => simp [addRun]
  | succ n ih =>
    simp only [addRun, Bool.false_or]
    split
    · rename_i d _
      rw [ih _ (changed || _), ih _ (t.add c).2]
      simp only [Prod.map, id, Bool.or_assoc]
    · rfl

theorem addRun_listed (t : Listed p) (c : Cell p) (n : Nat) :
    ∃ u : Listed p, (listed t).addRun false c n = (listed u, decide (u ≠ t)) ∧
      ∀ x, x ∈ u.partitions ↔ x ∈ t.partitions ∨ x ∈ c.run n := by
  induction n generalizing t c with
  | zero => exact ⟨t, by simp [addRun], by simp [Cell.run]⟩
  | succ n ih =>
    obtain ⟨u, hu, mem⟩ : ∃ u : Listed p,
        (listed t).addRun false c (n + 1) = (listed u, (t.add c).2 || decide (u ≠ (t.add c).1)) ∧
          ∀ x, x ∈ u.partitions ↔ x ∈ t.partitions ∨ x ∈ c.run (n + 1) := by
      simp only [addRun, add, Prod.map, id, Bool.false_or]
      cases hd : c.next? with
      | none => exact ⟨(t.add c).1, by simp, by simp [Listed.mem_add, Cell.run, hd]⟩
      | some d =>
        obtain ⟨u, hu, mem⟩ := ih (t.add c).1 d
        refine ⟨u, ?_, by simp [mem, Listed.mem_add, Cell.run, hd, or_assoc]⟩
        dsimp only
        rw [addRun_changed, hu]
        rfl
    refine ⟨u, hu.trans (congrArg (Prod.mk _) ?_), mem⟩
    by_cases h : c ∈ t.partitions
    · simp [Listed.add_of_mem h]
    · have : u ≠ t := fun e => h (e ▸ (mem c).mpr (.inr List.mem_cons_self))
      simp [Listed.add_changed, h, this]

theorem addUpto_eq_addRun (t : Contents p) (lower upper : Cell p) :
    t.addUpto lower upper = t.addRun false lower (upper.number - lower.number).toNat := by
  cases t with
  | listed t =>
    obtain ⟨u, hu, mem⟩ := addRun_listed t lower (upper.number - lower.number).toNat
    have filled : u = ⟨t.partitions.fill lower upper⟩ := congrArg Listed.mk <|
      OrderedSet.ext_mem fun x => by rw [mem, CellSet.mem_fill, ← Cell.mem_upto, Cell.upto]
    rw [hu, filled]
    rfl
  | holed t => rfl
  | span t => rfl

end Contents
end PartitionLedger

import PartitionLedger.Timeline.Basic

/-!
What can change a timeline, as data, so that a sequence of changes is a list.
-/
namespace PartitionLedger

inductive Edit where
  | add (q : Partition)
  | addAll (qs : List Partition)
  | addRange (r : Range)
  | drop (q : Partition)
  | load (bag : Bag)
deriving DecidableEq

/-- The edit takes what the timeline holds from properties, whatever it held before. -/
def Edit.Loads (e : Edit) : Prop := ∃ bag, e = .load bag

namespace Timeline

def edit (t : Timeline) : Edit → Timeline × Except TimelineError Bool
  | .add q => t.add q
  | .addAll qs => t.addAll qs
  | .addRange r => t.addRange r
  | .drop q => t.drop q
  | .load bag => t.load bag

/-- The timeline after a sequence of changes, of which those that are refused count as well. -/
def edits (t : Timeline) (es : List Edit) : Timeline := es.foldl (fun t e => (t.edit e).1) t

/-- Loading what the timeline itself is stored as. -/
def reload (t : Timeline) : Timeline × Except TimelineError Bool :=
  (empty t.key t.strategy).load t.encode

theorem key_add (t : Timeline) (q : Partition) : (t.add q).1.key = t.key := by
  simp only [add]
  split <;> rfl

theorem key_drop (t : Timeline) (q : Partition) : (t.drop q).1.key = t.key := by
  simp only [drop]
  split
  · rfl
  · split <;> rfl

theorem key_addAll (t : Timeline) (qs : List Partition) : (t.addAll qs).1.key = t.key := by
  induction qs generalizing t with
  | nil => rfl
  | cons q rest ih =>
    have first := t.key_add q
    simp only [addAll]
    split
    · rename_i u _ hu
      rw [hu] at first
      exact first
    · rename_i u _ hu
      rw [hu] at first
      exact (ih u).trans first

theorem key_addRange (t : Timeline) (r : Range) : (t.addRange r).1.key = t.key := by
  rw [addRange_eq_addAll]
  exact t.key_addAll r.toList

theorem key_load (t : Timeline) (bag : Bag) : (t.load bag).1.key = t.key := by
  simp only [load]
  split <;> rfl

theorem key_edit (t : Timeline) (e : Edit) : (t.edit e).1.key = t.key := by
  cases e with
  | add q => exact t.key_add q
  | addAll qs => exact t.key_addAll qs
  | addRange r => exact t.key_addRange r
  | drop q => exact t.key_drop q
  | load bag => exact t.key_load bag

end Timeline
end PartitionLedger

import PartitionLedger.Ordered.Set
import PartitionLedger.Partition.Cell

/-!
Sets of cells of one period.

Main statement: filling a stretch adds exactly the cells of the stretch.
-/
namespace PartitionLedger

abbrev CellSet (p : Period) := OrderedSet (Cell p)

namespace CellSet
variable {p : Period} {s : CellSet p} {a b c : Cell p}

/-- The set with every cell from `a` on that comes before `b` in it. -/
def fill (s : CellSet p) (a b : Cell p) : CellSet p :=
  if h : a ≤ b then
    ⟨s.toList.filter (· < a) ++ a.upto b ++ s.toList.filter (b ≤ ·), by
      have before {x : Cell p} : x ∈ s.toList.filter (· < a) → x < a := by simp
      have after {x : Cell p} : x ∈ s.toList.filter (b ≤ ·) → b ≤ x := by simp
      have mid {x : Cell p} : x ∈ a.upto b → a ≤ x ∧ x < b := Cell.mem_upto.mp
      rw [List.pairwise_append, List.pairwise_append]
      refine ⟨⟨s.ascending.filter _, Cell.upto_ascending, fun x hx y hy => ?_⟩,
        s.ascending.filter _, fun x hx y hy => ?_⟩
      · exact Std.lt_of_lt_of_le (before hx) (mid hy).1
      · obtain hx | hx := List.mem_append.mp hx
        · exact Std.lt_of_lt_of_le (before hx) (Std.le_trans h (after hy))
        · exact Std.lt_of_lt_of_le (mid hx).2 (after hy)⟩
  else s

/-- The set with every cell that comes after `a` and before `b` in it. -/
def fillBetween (s : CellSet p) (a b : Cell p) : CellSet p :=
  match a.next? with
  | some d => s.fill d b
  | none => s

theorem mem_fill : c ∈ s.fill a b ↔ c ∈ s ∨ a ≤ c ∧ c < b := by
  simp only [fill]
  split
  · rename_i h
    simp only [OrderedSet.mem_def, List.mem_append, List.mem_filter, Cell.mem_upto,
      decide_eq_true_eq, Cell.le_def, Cell.lt_def]
    constructor
    · rintro ((h | h) | h)
      · exact .inl h.1
      · exact .inr h
      · exact .inl h.1
    · rintro (h | h)
      · by_cases low : c.number < a.number
        · exact .inl (.inl ⟨h, low⟩)
        · by_cases high : b.number ≤ c.number
          · exact .inr ⟨h, high⟩
          · exact .inl (.inr (by omega))
      · exact .inl (.inr h)
  · rename_i h
    simp only [Cell.le_def, Cell.lt_def] at h ⊢
    exact ⟨.inl, fun hc => hc.resolve_right (by omega)⟩

theorem mem_fillBetween : c ∈ s.fillBetween a b ↔ c ∈ s ∨ a < c ∧ c < b := by
  simp only [fillBetween]
  split
  · rename_i d hd
    have step := Cell.next?_eq_some.mp hd
    simp only [mem_fill, Cell.le_def, Cell.lt_def]
    exact or_congr_right (and_congr_left' (by omega))
  · rename_i none
    refine ⟨.inl, fun h => h.resolve_right fun h => ?_⟩
    obtain ⟨d, hd, -⟩ := Cell.next?_of_lt h.1
    rw [none] at hd
    cases hd

end CellSet
end PartitionLedger

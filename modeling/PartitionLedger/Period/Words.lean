import PartitionLedger.Period.Grid

/-!
Moving by periods in machine words. The number of periods is a word of 64 bits. A product that does not
fit such a word, seconds whose milliseconds do not, and months that do not fit a word of 32 bits lead
nowhere.

Main statement: nothing but moves out of the years of instants is lost by that.
-/
namespace PartitionLedger

open Calendar

namespace Period

/-- The product of two words, if it fits a word. -/
def product? (a b : Int64) : Option Int64 :=
  if (a * b).toInt = a.toInt * b.toInt then some (a * b) else none

/-- Moves by `n` times a number of seconds. -/
def moveSeconds? (i : Instant) (n width : Int64) : Option Instant := do
  let seconds ← product? width n
  if seconds.toInt.natAbs ≤ 9223372036854775 then i.addSeconds? seconds.toInt else none

/-- Moves by `n` times a number of months, which are counted without their sign. -/
def moveMonths? (i : Instant) (n width : Int64) : Option Instant := do
  let months ← product? width n
  let magnitude := months.toInt.natAbs
  if magnitude < 4294967296 then
    if 0 ≤ months then i.addMonths? magnitude else i.addMonths? (-magnitude)
  else none

/-- `offset` by a number of periods that is a word. -/
def checkedOffset (p : Period) (i : Instant) (n : Int64) : Option Instant :=
  match p with
  | continuous | secondly => moveSeconds? i n 1
  | minutely => moveSeconds? i n 60
  | hourly => moveSeconds? i n 3600
  | daily => moveSeconds? i n 86400
  | weekly => moveSeconds? i n 604800
  | monthly => moveMonths? i n 1
  | quarterly => moveMonths? i n 3
  | yearly => moveMonths? i n 12

end Period

namespace Instant
variable {i : Instant} {n : Int}

/-- No two instants are 10 ^ 14 seconds apart. -/
theorem addSeconds?_of_far (h : 100000000000000 ≤ n.natAbs) : i.addSeconds? n = none := by
  have hfirst := i.first_le
  have hend := i.lt_end
  have first := first_day
  have stop := end_day
  have hout : ∀ s nanos, (s = i.seconds + n ∨ s = i.seconds + 1 + n) → ofUnix? s nanos = none := by
    intro s nanos hs
    apply ofUnix?_eq_none
    omega
  simp only [addSeconds?]
  split
  · exact hout _ _ (Or.inl rfl)
  · split
    · exact hout _ _ (Or.inl rfl)
    · exact hout _ _ (Or.inr rfl)

/-- No two instants are 2 ^ 32 months apart. -/
theorem addMonths?_of_far (h : 4294967296 ≤ n.natAbs) : i.addMonths? n = none := by
  have hfirst := i.first_le
  have hend := i.lt_end
  have first := first_day
  have stop := end_day
  have hstart := monthOf_start_le i.day
  have hnext := lt_monthOf_succ_start i.day
  have hlength := monthLength_bounds (monthOf i.day)
  have hlast := monthLength_bounds (monthOf i.day + n)
  have hday : i.day = i.seconds / 86400 := rfl
  simp only [monthLength] at hlength
  apply ofUnix?_eq_none
  -- 28 days for each month outrun the years of instants on either side
  rcases Int.le_total 0 n with hn | hn
  · have hfar := le_monthStart_sub (a := monthOf i.day) (b := monthOf i.day + n) (by omega)
    omega
  · have hfar := le_monthStart_sub (a := monthOf i.day + n) (b := monthOf i.day) (by omega)
    omega

end Instant

namespace Period

/-- A product fits a word, or is far from zero. -/
theorem product?_cases (a b : Int64) :
    (∃ c, product? a b = some c ∧ c.toInt = a.toInt * b.toInt) ∨
      product? a b = none ∧ 9223372036854775808 ≤ (a.toInt * b.toInt).natAbs := by
  by_cases h : (a * b).toInt = a.toInt * b.toInt
  · exact Or.inl ⟨a * b, if_pos h, h⟩
  · refine Or.inr ⟨if_neg h, ?_⟩
    -- the word that the product wraps to is the product itself if that fits
    apply Decidable.byContradiction
    intro hfit
    apply h
    rw [Int64.toInt_mul]
    exact Int.bmod_eq_of_le (by omega) (by omega)

theorem moveSeconds?_eq (i : Instant) (n width : Int64) :
    moveSeconds? i n width = i.addSeconds? (width.toInt * n.toInt) := by
  obtain ⟨seconds, hp, hs⟩ | ⟨hp, hfar⟩ := product?_cases width n
  · simp only [moveSeconds?, hp, Option.bind_eq_bind, Option.bind_some, hs]
    split
    · rfl
    · rename_i hlong
      exact (Instant.addSeconds?_of_far (by omega)).symm
  · simp only [moveSeconds?, hp, Option.bind_eq_bind, Option.bind_none]
    exact (Instant.addSeconds?_of_far (by omega)).symm

theorem addMonths?_magnitude (i : Instant) (months : Int64) :
    (if 0 ≤ months then i.addMonths? months.toInt.natAbs
      else i.addMonths? (-months.toInt.natAbs)) = i.addMonths? months.toInt := by
  have hsign : 0 ≤ months ↔ 0 ≤ months.toInt := Int64.le_iff_toInt_le
  split
  · rename_i h
    have hn := hsign.mp h
    exact congrArg i.addMonths? (by omega)
  · rename_i h
    have hn := mt hsign.mpr h
    exact congrArg i.addMonths? (by omega)

theorem moveMonths?_eq (i : Instant) (n width : Int64) :
    moveMonths? i n width = i.addMonths? (width.toInt * n.toInt) := by
  obtain ⟨months, hp, hm⟩ | ⟨hp, hfar⟩ := product?_cases width n
  · simp only [moveMonths?, hp, Option.bind_eq_bind, Option.bind_some, addMonths?_magnitude, hm]
    split
    · rfl
    · rename_i hlong
      exact (Instant.addMonths?_of_far (by omega)).symm
  · simp only [moveMonths?, hp, Option.bind_eq_bind, Option.bind_none]
    exact (Instant.addMonths?_of_far (by omega)).symm

/-- In words the same instant is reached, and where words lead nowhere there is no instant. -/
theorem checkedOffset_eq (p : Period) (i : Instant) (n : Int64) :
    p.checkedOffset i n = p.offset i n.toInt := by
  cases p with
  | continuous | secondly => simpa [checkedOffset, offset] using moveSeconds?_eq i n 1
  | minutely => exact moveSeconds?_eq i n 60
  | hourly => exact moveSeconds?_eq i n 3600
  | daily => exact moveSeconds?_eq i n 86400
  | weekly => exact moveSeconds?_eq i n 604800
  | monthly => simpa [checkedOffset, offset] using moveMonths?_eq i n 1
  | quarterly => exact moveMonths?_eq i n 3
  | yearly => exact moveMonths?_eq i n 12

end Period
end PartitionLedger

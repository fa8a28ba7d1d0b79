/-!
Decimal numerals: of a fixed width, of the least width, and read with any zero padding.
-/
namespace PartitionLedger.Text

def digit (n : Nat) : Char := Char.ofNat (48 + n % 10)

/-- The last `width` digits of `n`. -/
def fixed : (width : Nat) → Nat → List Char
  | 0, _ => []
  | width + 1, n => fixed width (n / 10) ++ [digit n]

/-- The digits of `n`, at least four of them. -/
def atLeastFour (n : Nat) : List Char :=
  if n < 10000 then fixed 4 n else atLeastFour (n / 10) ++ [digit n]
termination_by n

/-- The number that a text of ASCII digits stands for; none for any other text. -/
def readNumber? (text : List Char) : Option Nat :=
  if text ≠ [] ∧ text.all Char.isDigit then
    some (text.foldl (fun n c => 10 * n + (c.toNat - 48)) 0)
  else none

theorem length_fixed (width n : Nat) : (fixed width n).length = width := by
  induction width generalizing n with
  | zero => rfl
  | succ width ih => simp [fixed, ih]

theorem isDigit_digit (n : Nat) : (digit n).isDigit := by
  have all : ∀ d < 10, (Char.ofNat (48 + d)).isDigit := by decide
  exact all (n % 10) (Nat.mod_lt _ (by decide))

theorem value_digit (n : Nat) : (digit n).toNat - 48 = n % 10 := by
  have all : ∀ d < 10, (Char.ofNat (48 + d)).toNat - 48 = d := by decide
  exact all (n % 10) (Nat.mod_lt _ (by decide))

theorem all_isDigit_fixed (width n : Nat) : (fixed width n).all Char.isDigit := by
  induction width generalizing n with
  | zero => rfl
  | succ width ih => simp [fixed, ih, isDigit_digit]

end PartitionLedger.Text

import PartitionLedger.Period.Layout

/-!
The cells of a period that a partition can be: those that start in the years 0 to 9999.

Main statements: each such cell starts at an instant, the order of cells is linear, and `next?` and
`previous?` lead one number on and one back.
-/
namespace PartitionLedger

namespace Period

/-- Number of the first cell that starts in year 0. -/
def firstCell (p : Period) : Int := p.cellAt (86400 * Calendar.yearStart 0 - 1) + 1

/-- Number of the last cell that starts in year 9999. -/
def lastCell (p : Period) : Int := p.cellAt (86400 * Calendar.yearStart 10000 - 1)

theorem cell_bounds_iff_start (p : Period) {c : Int} :
    p.firstCell ≤ c ∧ c ≤ p.lastCell ↔
      86400 * Calendar.yearStart 0 ≤ p.startOf c ∧ p.startOf c < 86400 * Calendar.yearStart 10000 := by
  have first := p.startOf_le_iff (c := c) (s := 86400 * Calendar.yearStart 0 - 1)
  have last := p.startOf_le_iff (c := c) (s := 86400 * Calendar.yearStart 10000 - 1)
  simp only [firstCell, lastCell]
  omega

end Period

/-- A cell of the grid of `p`, by its number. -/
structure Cell (p : Period) where
  number : Int
  first_le : p.firstCell ≤ number
  le_last : number ≤ p.lastCell
deriving DecidableEq

namespace Cell
variable {p : Period} {a b c : Cell p}

theorem ext_number (h : a.number = b.number) : a = b := by
  cases a
  cases b
  cases h
  rfl

instance : LT (Cell p) where
  lt a b := a.number < b.number

instance : LE (Cell p) where
  le a b := a.number ≤ b.number

instance (a b : Cell p) : Decidable (a < b) := inferInstanceAs (Decidable (a.number < b.number))

instance (a b : Cell p) : Decidable (a ≤ b) := inferInstanceAs (Decidable (a.number ≤ b.number))

instance : Std.IsLinearOrder (Cell p) where
  le_refl a := Int.le_refl a.number
  le_trans _ _ _ := Int.le_trans
  le_antisymm _ _ h h' := ext_number (Int.le_antisymm h h')
  le_total a b := Int.le_total a.number b.number

instance : Std.LawfulOrderLT (Cell p) where
  lt_iff a b := by
    change a.number < b.number ↔ a.number ≤ b.number ∧ ¬ b.number ≤ a.number
    omega

instance : Max (Cell p) where
  max a b := if a ≤ b then b else a

instance : Min (Cell p) where
  min a b := if a ≤ b then a else b

/-- The cell with this number, if a partition can be it. -/
def ofNumber? (p : Period) (n : Int) : Option (Cell p) :=
  if h : p.firstCell ≤ n ∧ n ≤ p.lastCell then some ⟨n, h.1, h.2⟩ else none

def offset? (c : Cell p) (n : Int) : Option (Cell p) := ofNumber? p (c.number + n)

def next? (c : Cell p) : Option (Cell p) := c.offset? 1

def previous? (c : Cell p) : Option (Cell p) := c.offset? (-1)

theorem ofNumber?_eq_some {n : Int} : ofNumber? p n = some c ↔ c.number = n := by
  cases c with
  | mk m h h' =>
    simp only [ofNumber?, Option.dite_none_right_eq_some, Option.some.injEq, mk.injEq]
    constructor
    · rintro ⟨_, rfl⟩
      rfl
    · rintro rfl
      exact ⟨⟨h, h'⟩, rfl⟩

theorem next?_eq_some : a.next? = some b ↔ b.number = a.number + 1 := ofNumber?_eq_some

theorem previous?_eq_some : b.previous? = some a ↔ b.number = a.number + 1 := by
  simp only [previous?, offset?, ofNumber?_eq_some]
  omega

theorem start_bounds (c : Cell p) :
    86400 * Calendar.yearStart (-262143) ≤ p.startOf c.number ∧
      p.startOf c.number < 86400 * Calendar.yearStart 262143 := by
  have years := p.cell_bounds_iff_start.mp ⟨c.first_le, c.le_last⟩
  rw [Calendar.yearStart_zero, Calendar.yearStart_10000] at years
  rw [Instant.first_day, Instant.end_day]
  omega

/-- The instant a cell starts at. -/
def start (c : Cell p) : Instant where
  seconds := p.startOf c.number
  nanos := 0
  first_le := (start_bounds c).1
  lt_end := (start_bounds c).2
  nanos_lt := by decide

/-- Every cell starts on a boundary of its period. -/
theorem aligned_start (c : Cell p) : p.Aligned c.start := by
  simp only [Period.Aligned, Period.truncate, Instant.ofUnix?_eq_some, start, Period.cellAt_startOf,
    and_self]

/-- The canonical text of a cell. -/
def text (c : Cell p) : String := p.write c.start

/-- The cells from `c` on, `n` of them if there are as many. -/
def run (c : Cell p) : Nat → List (Cell p)
  | 0 => []
  | n + 1 => c :: match c.next? with
    | some d => d.run n
    | none => []

/-- The cells from `a` on that come before `b`. -/
def upto (a b : Cell p) : List (Cell p) := a.run (b.number - a.number).toNat

/-- Number of steps from one cell to the other. -/
def distance (a b : Cell p) : Nat := (b.number - a.number).natAbs

theorem lt_def : a < b ↔ a.number < b.number := Iff.rfl

theorem le_def : a ≤ b ↔ a.number ≤ b.number := Iff.rfl

theorem start_lt_iff : a.start < b.start ↔ a < b :=
  (Instant.lt_whole_iff rfl).trans p.startOf_lt_iff

theorem next?_of_lt (h : a < b) : ∃ d, a.next? = some d ∧ d.number = a.number + 1 ∧ d ≤ b := by
  have bounds : p.firstCell ≤ a.number + 1 ∧ a.number + 1 ≤ p.lastCell := by
    have := a.first_le
    have := b.le_last
    have := lt_def.mp h
    omega
  exact ⟨⟨a.number + 1, bounds.1, bounds.2⟩, next?_eq_some.mpr rfl, rfl, lt_def.mp h⟩

theorem mem_run {n : Nat} : b ∈ a.run n ↔ a ≤ b ∧ b.number < a.number + n := by
  induction n generalizing a with
  | zero =>
    simp only [run, List.not_mem_nil, le_def, false_iff]
    omega
  | succ n ih =>
    simp only [run, List.mem_cons]
    split
    · rename_i d hd
      have step := next?_eq_some.mp hd
      rw [ih, le_def, le_def, step]
      constructor
      · rintro (rfl | h)
        · omega
        · omega
      · intro h
        by_cases hn : b.number = a.number
        · exact Or.inl (ext_number hn)
        · omega
    · rename_i hd
      simp only [List.not_mem_nil, or_false]
      constructor
      · rintro rfl
        exact ⟨Int.le_refl _, by omega⟩
      · rintro ⟨h, -⟩
        refine ext_number ?_
        by_cases hn : b.number = a.number
        · exact hn
        · obtain ⟨d, hd', -⟩ := next?_of_lt (a := a) (b := b) (by rw [lt_def]; rw [le_def] at h; omega)
          rw [hd] at hd'
          cases hd'

theorem run_ascending {n : Nat} : (a.run n).Pairwise (· < ·) := by
  induction n generalizing a with
  | zero => exact .nil
  | succ n ih =>
    refine List.pairwise_cons.mpr ⟨fun c hc => ?_, ?_⟩
    · split at hc
      · rename_i d hd
        have step := next?_eq_some.mp hd
        have le := (mem_run.mp hc).1
        rw [le_def] at le
        rw [lt_def]
        omega
      · cases hc
    · split
      · exact ih
      · exact .nil

theorem length_run {n : Nat} (h : a.number + n ≤ p.lastCell + 1) : (a.run n).length = n := by
  induction n generalizing a with
  | zero => rfl
  | succ n ih =>
    simp only [run, List.length_cons, Nat.add_right_cancel_iff]
    split
    · rename_i d hd
      have step := next?_eq_some.mp hd
      exact ih (by omega)
    · rename_i none
      have first := a.first_le
      cases n with
      | zero => rfl
      | succ n =>
        have : a.offset? 1 = some ⟨a.number + 1, by omega, by omega⟩ := ofNumber?_eq_some.mpr rfl
        rw [next?, this] at none
        cases none

theorem upto_ascending : (a.upto b).Pairwise (· < ·) := run_ascending

theorem mem_upto : c ∈ a.upto b ↔ a ≤ c ∧ c < b := by
  rw [upto, mem_run, le_def, lt_def]
  omega

theorem take_run (m n : Nat) : (a.run n).take m = a.run (min m n) := by
  induction n generalizing a m with
  | zero => simp [run]
  | succ n ih =>
    cases m with
    | zero => simp [run]
    | succ m =>
      rw [Nat.succ_min_succ]
      simp only [run, List.take_succ_cons]
      split <;> simp [ih]

end Cell
end PartitionLedger

/-!
Months and years of the proleptic Gregorian calendar, as a grid over day numbers.

Day 0 is 1970-01-01. Month 0 is January of year 0, so month `12 * y + m - 1` is month `m` of year `y`.
Main statement: every day lies in the month that `monthOf` names.
-/
namespace PartitionLedger.Calendar

/-- The day on which a month starts. Years are laid out from March, so that the leap day comes last
and the months before it have the lengths of a fixed pattern. -/
def monthStart (month : Int) : Int :=
  let year := (month - 2) / 12
  let fromMarch := (month - 2) % 12
  365 * year + year / 4 - year / 100 + year / 400 + (153 * fromMarch + 2) / 5 - 719468

/-- The month that holds a day: the mean length of a month gives it up to one month. -/
def monthOf (day : Int) : Int :=
  let guess := 4800 * (day + 719528) / 146097
  if day < monthStart guess then guess - 1
  else if day < monthStart (guess + 1) then guess
  else guess + 1

def yearStart (year : Int) : Int := monthStart (12 * year)

def yearOf (day : Int) : Int := monthOf day / 12

/-- Number of days of a month. -/
def monthLength (month : Int) : Int := monthStart (month + 1) - monthStart month

/-- From one year to the next at most one leap day is added, and none is taken away. -/
theorem leapDays_succ (year : Int) :
    year / 4 - year / 100 + year / 400 ≤ (year + 1) / 4 - (year + 1) / 100 + (year + 1) / 400 ∧
      (year + 1) / 4 - (year + 1) / 100 + (year + 1) / 400 ≤ year / 4 - year / 100 + year / 400 + 1 := by
  by_cases four : (year + 1) % 4 = 0
  · by_cases hundred : (year + 1) % 100 = 0 <;> omega
  · omega

theorem monthLength_bounds (month : Int) : 28 ≤ monthLength month ∧ monthLength month ≤ 31 := by
  simp only [monthLength, monthStart]
  by_cases february : (month - 2) % 12 = 11
  · have year : (month + 1 - 2) / 12 = (month - 2) / 12 + 1 := by omega
    have march : (month + 1 - 2) % 12 = 0 := by omega
    have := leapDays_succ ((month - 2) / 12)
    simp only [year, march, february]
    omega
  · have year : (month + 1 - 2) / 12 = (month - 2) / 12 := by omega
    have next : (month + 1 - 2) % 12 = (month - 2) % 12 + 1 := by omega
    simp only [year, next]
    omega

theorem monthStart_lt_succ (month : Int) : monthStart month < monthStart (month + 1) := by
  have := monthLength_bounds month
  simp only [monthLength] at this
  omega

/-- Months have 28 days at least. -/
theorem le_monthStart_sub {a b : Int} (h : a ≤ b) : 28 * (b - a) ≤ monthStart b - monthStart a := by
  obtain ⟨n, rfl⟩ := Int.le.dest h
  induction n with
  | zero => simp
  | succ n ih =>
    have length := (monthLength_bounds (a + n)).1
    have cast : a + ((n + 1 : Nat) : Int) = a + n + 1 := by omega
    have := ih (by omega)
    simp only [monthLength] at length
    rw [cast]
    omega

theorem monthStart_mono {a b : Int} (h : a ≤ b) : monthStart a ≤ monthStart b := by
  have := le_monthStart_sub h
  omega

theorem monthOf_start_le (day : Int) : monthStart (monthOf day) ≤ day := by
  simp only [monthOf]
  split
  · simp only [monthStart] at *
    omega
  · split
    · omega
    · omega

theorem lt_monthOf_succ_start (day : Int) : day < monthStart (monthOf day + 1) := by
  simp only [monthOf]
  split
  · simpa using ‹_›
  · split
    · assumption
    · simp only [monthStart] at *
      omega

theorem yearStart_zero : yearStart 0 = -719528 := by decide

theorem yearStart_10000 : yearStart 10000 = 2932897 := by decide

end PartitionLedger.Calendar

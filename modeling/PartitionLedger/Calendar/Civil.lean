import PartitionLedger.Calendar.Instant

/-!
Instants named by the numbers of a calendar: year, month and day with a time of day, or year and week.

Main statement: the year, month and day of the month that a day has name that day.
-/
namespace PartitionLedger.Calendar

/-- The day with these numbers, if its month has it. -/
def dayOf? (year month day : Nat) : Option Int :=
  let monthNumber := 12 * (year : Int) + month - 1
  if 1 ≤ month ∧ month ≤ 12 ∧ 1 ≤ day ∧ day ≤ monthLength monthNumber then
    some (monthStart monthNumber + day - 1)
  else none

/-- Seconds since midnight at these numbers; no time of day names a leap second. -/
def timeOf? (hour minute second : Nat) : Option Nat :=
  if hour < 24 ∧ minute < 60 ∧ second < 60 then some (3600 * hour + 60 * minute + second) else none

/-- The Monday of a week, if its year has a week of that number. -/
def mondayOf? (year week : Nat) : Option Int :=
  let weekIndex := firstWeek year + week - 1
  if 1 ≤ week ∧ weekIndex < firstWeek (year + 1) then some (weekStart weekIndex) else none

theorem dayOf?_monthOf {day : Int} {year month dom : Nat} (hy : (year : Int) = yearOf day)
    (hm : (month : Int) = monthOf day % 12 + 1)
    (hd : (dom : Int) = day - monthStart (monthOf day) + 1) : dayOf? year month dom = some day := by
  have number : 12 * (year : Int) + month - 1 = monthOf day := by
    simp only [yearOf] at hy
    omega
  have := monthOf_start_le day
  have := lt_monthOf_succ_start day
  have bounds : 1 ≤ month ∧ month ≤ 12 ∧ 1 ≤ dom ∧ dom ≤ monthLength (monthOf day) := by
    simp only [monthLength]
    omega
  simp only [dayOf?, number, bounds, and_self, ↓reduceIte, Option.some.injEq]
  omega

end PartitionLedger.Calendar

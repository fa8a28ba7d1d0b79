import PartitionLedger.Calendar.Month

/-!
Weeks that start on Monday, and the years that ISO 8601 counts them in.

Week 0 is the week of day 0, a Thursday. The Thursday of week `w` is therefore day `7 * w`.
-/
namespace PartitionLedger.Calendar

def weekOf (day : Int) : Int := (day + 3) / 7

def weekStart (week : Int) : Int := 7 * week - 3

/-- A week belongs to the year of its Thursday. -/
def weekYear (week : Int) : Int := yearOf (7 * week)

/-- The first week of a year is the one that holds its first Thursday. -/
def firstWeek (year : Int) : Int := (yearStart year + 6) / 7

/-- Number of a week within its year, from 1. -/
def weekNumber (week : Int) : Int := week - firstWeek (weekYear week) + 1

theorem weekOf_start_le (day : Int) : weekStart (weekOf day) ≤ day := by
  simp only [weekStart, weekOf]
  omega

theorem lt_weekOf_succ_start (day : Int) : day < weekStart (weekOf day + 1) := by
  simp only [weekStart, weekOf]
  omega

theorem weekOf_weekStart (week : Int) : weekOf (weekStart week) = week := by
  simp only [weekStart, weekOf]
  omega

end PartitionLedger.Calendar

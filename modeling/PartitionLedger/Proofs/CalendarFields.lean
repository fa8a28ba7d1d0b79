import PartitionLedger.Period.Layout
import PartitionLedger.Proofs.Boundaries

/-!
Which numbers of a calendar name which instant: a date is named by its year, month and day alone, a
Monday by its week, and the fields that the texts of a period leave out are at their least exactly at
the boundaries of the period.
-/
namespace PartitionLedger

open Calendar Period

namespace Calendar
variable {day week : Int} {year month dom hour minute second : Nat}

/-- A day lies in no other month than the one that `monthOf` names. -/
theorem monthOf_eq {month : Int} (hlow : monthStart month ≤ day)
    (hhigh : day < monthStart (month + 1)) : monthOf day = month := by
  have hstart := monthOf_start_le day
  have hnext := lt_monthOf_succ_start day
  rcases Int.lt_trichotomy (monthOf day) month with hlt | heq | hgt
  · have := monthStart_mono (a := monthOf day + 1) (b := month) (by omega)
    omega
  · exact heq
  · have := monthStart_mono (a := month + 1) (b := monthOf day) (by omega)
    omega

theorem dayOf?_eq_some : dayOf? year month dom = some day ↔ (year : Int) = yearOf day ∧
    (month : Int) = monthOf day % 12 + 1 ∧ (dom : Int) = day - monthStart (monthOf day) + 1 := by
  constructor
  · intro h
    rw [dayOf?, Option.ite_none_right_eq_some, Option.some.injEq, monthLength] at h
    obtain ⟨⟨hm, hm', hd, hd'⟩, hday⟩ := h
    have hmonth : monthOf day = 12 * (year : Int) + month - 1 :=
      monthOf_eq (by omega) (by omega)
    rw [yearOf, hmonth]
    omega
  · rintro ⟨hy, hm, hd⟩
    exact dayOf?_monthOf hy hm hd

theorem timeOf?_eq_some {time : Nat} : timeOf? hour minute second = some time ↔
    hour < 24 ∧ minute < 60 ∧ second < 60 ∧ 3600 * hour + 60 * minute + second = time := by
  simp [timeOf?, and_assoc]

theorem yearStart_succ_le (year : Int) : yearStart (year + 1) ≤ yearStart year + 366 := by
  have hl := leapDays_succ (year - 1)
  have hn : (12 * (year + 1) - 2) / 12 = year := by omega
  have hy : (12 * year - 2) / 12 = year - 1 := by omega
  have hm : (12 * (year + 1) - 2) % 12 = 10 := by omega
  have hm' : (12 * year - 2) % 12 = 10 := by omega
  simp only [yearStart, monthStart, hn, hy, hm, hm']
  have he : year - 1 + 1 = year := by omega
  rw [he] at hl
  omega

/-- A week is counted in the year that its number lies in the weeks of. -/
theorem weekYear_eq_iff {year : Int} :
    weekYear week = year ↔ firstWeek year ≤ week ∧ week < firstWeek (year + 1) := by
  have hl := yearStart_le_iff (y := year) (d := 7 * week)
  have hu := yearStart_le_iff (y := year + 1) (d := 7 * week)
  simp only [weekYear, firstWeek]
  omega

theorem weekNumber_bounds (week : Int) : 1 ≤ weekNumber week ∧ weekNumber week ≤ 53 := by
  have hw := weekYear_eq_iff.mp (rfl : weekYear week = _)
  have hy := yearStart_succ_le (weekYear week)
  simp only [firstWeek, weekNumber] at hw ⊢
  omega

theorem mondayOf?_eq_some {monday : Int} {number : Nat} : mondayOf? year number = some monday ↔
    ∃ week, monday = weekStart week ∧ (year : Int) = weekYear week ∧
      (number : Int) = weekNumber week := by
  constructor
  · intro h
    simp only [mondayOf?, Option.ite_none_right_eq_some, Option.some.injEq] at h
    obtain ⟨⟨hone, hlast⟩, hmonday⟩ := h
    have hyear := weekYear_eq_iff.mpr ⟨by omega, hlast⟩
    refine ⟨_, hmonday.symm, hyear.symm, ?_⟩
    rw [weekNumber, hyear]
    omega
  · rintro ⟨week, rfl, hyear, hnumber⟩
    obtain ⟨hfirst, hlast⟩ := weekYear_eq_iff.mp hyear.symm
    have hindex : firstWeek year + number - 1 = week := by
      rw [hnumber, weekNumber, ← hyear]
      omega
    have hone := (weekNumber_bounds week).1
    have hvalid : 1 ≤ number ∧ week < firstWeek (year + 1) := ⟨by omega, hlast⟩
    simp only [mondayOf?, hindex, if_pos hvalid]

end Calendar

namespace Instant
variable {i : Instant} {year month dom hour minute second : Nat}

theorem dayOf?_eq_day : dayOf? year month dom = some i.day ↔
    (year : Int) = i.year ∧ month = i.month ∧ dom = i.dayOfMonth := by
  have hstart := monthOf_start_le i.day
  rw [dayOf?_eq_some]
  simp only [Instant.year, Instant.month, dayOfMonth]
  omega

/-- A date with a time of day is the one of a single whole second. -/
theorem date_eq_seconds : (do
    let day ← dayOf? year month dom
    let time ← timeOf? hour minute second
    return 86400 * day + (time : Int)) = some i.seconds ∧ i.nanos = 0 ↔
      ((year : Int) = i.year ∧ month = i.month ∧ dom = i.dayOfMonth ∧ hour = i.hour ∧
        minute = i.minute ∧ second = i.second) ∧ i.nanos = 0 := by
  apply and_congr_left
  intro hn
  have hclock : (hour < 24 ∧ minute < 60 ∧ second < 60 ∧
      3600 * hour + 60 * minute + second = (i.seconds % 86400).toNat) ↔
      hour = i.hour ∧ minute = i.minute ∧ second = i.second := by
    simp only [Instant.hour, Instant.minute, Instant.second, hn]
    omega
  simp only [bind, pure, Option.bind_eq_some_iff, timeOf?_eq_some, Option.some.injEq]
  constructor
  · rintro ⟨day, hday, time, htime, hsum⟩
    obtain ⟨hd, ht⟩ : day = i.day ∧ time = (i.seconds % 86400).toNat := by
      simp only [Instant.day]
      omega
    rw [hd, dayOf?_eq_day] at hday
    exact ⟨hday.1, hday.2.1, hday.2.2, hclock.mp (ht ▸ htime)⟩
  · rintro ⟨hy, hm, hd, htime⟩
    refine ⟨i.day, dayOf?_eq_day.mpr ⟨hy, hm, hd⟩, _, hclock.mpr htime, ?_⟩
    simp only [Instant.day]
    omega

end Instant

namespace Period
variable {p : Period} {i : Instant}

theorem aligned_iff_cellAt :
    p.Aligned i ↔ i.seconds = p.startOf (p.cellAt i.seconds) ∧ i.nanos = 0 := truncate_eq_some

theorem aligned_continuous : continuous.Aligned i ↔ i.nanos = 0 := by
  simp [aligned_iff_cellAt, startOf, cellAt]

theorem aligned_secondly : secondly.Aligned i ↔ i.nanos = 0 := aligned_continuous

theorem aligned_minutely : minutely.Aligned i ↔ i.second = 0 ∧ secondly.Aligned i := by
  rw [aligned_secondly]
  simp only [aligned_iff_cellAt, startOf, cellAt, Instant.second]
  omega

theorem aligned_hourly : hourly.Aligned i ↔ i.minute = 0 ∧ minutely.Aligned i := by
  simp only [aligned_iff_cellAt, startOf, cellAt, Instant.minute]
  omega

theorem aligned_daily : daily.Aligned i ↔ i.hour = 0 ∧ hourly.Aligned i := by
  simp only [aligned_iff_cellAt, startOf, cellAt, Instant.hour]
  omega

theorem aligned_monthly : monthly.Aligned i ↔ i.dayOfMonth = 1 ∧ daily.Aligned i := by
  have hstart := monthOf_start_le (i.seconds / 86400)
  simp only [aligned_iff_cellAt, startOf, cellAt, Instant.dayOfMonth, Instant.day]
  omega

/-- Boundaries of years and quarters are those of some of the months. -/
theorem aligned_months {width : Int} :
    i.seconds = 86400 * monthStart (width * (monthOf i.day / width)) ∧ i.nanos = 0 ↔
      monthOf i.day % width = 0 ∧ monthly.Aligned i := by
  have hdiv := Int.mul_ediv_add_emod (monthOf i.day) width
  rw [aligned_iff_cellAt]
  change _ ↔ _ ∧ i.seconds = 86400 * monthStart (monthOf i.day) ∧ _
  constructor
  · rintro ⟨hs, hn⟩
    have hday : i.day = monthStart (width * (monthOf i.day / width)) := by
      rw [Instant.day] at hs ⊢
      omega
    have hmonth : monthOf i.day = width * (monthOf i.day / width) := by
      conv => lhs; rw [hday]
      exact monthOf_monthStart _
    rw [← hmonth] at hs
    exact ⟨by omega, hs, hn⟩
  · rintro ⟨hrest, hs, hn⟩
    have hmonth : width * (monthOf i.day / width) = monthOf i.day := by omega
    rw [hmonth]
    exact ⟨hs, hn⟩

theorem aligned_yearly : yearly.Aligned i ↔ i.month = 1 ∧ monthly.Aligned i := by
  have hmonth : i.month = 1 ↔ monthOf i.day % 12 = 0 := by
    simp only [Instant.month]
    omega
  rw [hmonth, ← aligned_months, aligned_iff_cellAt]
  rfl

theorem aligned_quarterly : quarterly.Aligned i ↔ i.month % 3 = 1 ∧ monthly.Aligned i := by
  have hmonth : i.month % 3 = 1 ↔ monthOf i.day % 3 = 0 := by
    simp only [Instant.month]
    omega
  rw [hmonth, ← aligned_months, aligned_iff_cellAt]
  rfl

/-- The Monday of a week is the boundary that the week starts at. -/
theorem monday_eq_seconds {year number : Nat} :
    (do let monday ← mondayOf? year number; return 86400 * monday) = some i.seconds ∧ i.nanos = 0 ↔
      ((year : Int) = i.weekYear ∧ number = i.week) ∧ weekly.Aligned i := by
  have hone := (weekNumber_bounds (weekOf i.day)).1
  simp only [bind, pure, Option.bind_eq_some_iff, mondayOf?_eq_some, Option.some.injEq,
    aligned_iff_cellAt]
  change _ ↔ (_ = weekYear (weekOf i.day) ∧ number = (weekNumber (weekOf i.day)).toNat) ∧
    i.seconds = 86400 * weekStart (weekOf i.day) ∧ _
  constructor
  · rintro ⟨⟨_, ⟨week, rfl, hyear, hnumber⟩, hs⟩, hn⟩
    have hweek : weekOf i.day = week := by
      rw [← weekOf_weekStart week, Instant.day, ← hs, Int.mul_ediv_cancel_left _ (by decide)]
    rw [hweek]
    exact ⟨⟨hyear, by omega⟩, hs.symm, hn⟩
  · rintro ⟨⟨hyear, hnumber⟩, hs, hn⟩
    exact ⟨⟨_, ⟨_, rfl, hyear, by omega⟩, hs.symm⟩, hn⟩

end Period

namespace Field
variable {f : Field} {i : Instant}

/-- The number that the field shows of an instant. -/
def number : Field → Instant → Nat
  | year, i => i.year.toNat
  | month, i => i.month
  | day, i => i.dayOfMonth
  | hour, i => i.hour
  | minute, i => i.minute
  | second, i => i.second
  | weekYear, i => i.weekYear.toNat
  | week, i => i.week

/-- The field counts the instant by this number; a year before the year 0 has none. -/
def Counts (f : Field) (i : Instant) (n : Nat) : Prop :=
  match f with
  | year => (n : Int) = i.year
  | weekYear => (n : Int) = i.weekYear
  | _ => n = f.number i

end Field

namespace Period
variable {p : Period} {i : Instant}

/-- The period at whose boundaries the instants lie that texts can show: the texts of quarters show
months. -/
def shownAs : Period → Period
  | quarterly => monthly
  | p => p

/-- The numbers of a text name an instant exactly if they are those it is counted by, and the fields
that the text leaves out are at their least. -/
theorem secondOf?_iff {g : Field → Nat} :
    p.secondOf? (p.layout.map g) = some i.seconds ∧ i.nanos = 0 ↔
      p.shownAs.Aligned i ∧ ∀ f ∈ p.layout, f.Counts i (g f) := by
  cases p with
  | weekly =>
    simp only [secondOf?, monday_eq_seconds, layout, List.map_cons, List.map_nil,
      List.getD_cons_zero, List.getD_cons_succ, shownAs, List.forall_mem_cons, List.not_mem_nil,
      false_implies, implies_true, and_true, Field.Counts, Field.number]
    exact and_comm
  | continuous | secondly | minutely | hourly | daily | monthly | quarterly | yearly =>
    simp only [secondOf?, Instant.date_eq_seconds, layout, List.map_cons, List.map_nil,
      List.getD_cons_zero, List.getD_cons_succ, List.getD_nil, shownAs, aligned_yearly, aligned_monthly,
      aligned_daily, aligned_hourly, aligned_minutely, aligned_secondly, aligned_continuous,
      List.forall_mem_cons, List.not_mem_nil, false_implies, implies_true, Field.Counts, Field.number]
    grind

end Period
end PartitionLedger

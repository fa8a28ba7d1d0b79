import PartitionLedger.Calendar.Week
import PartitionLedger.Text.Decimal

/-!
Instants in UTC: a second of Unix time and the nanoseconds after it.

A leap second is a second of its own, counted as a billion nanoseconds or more after the second before it;
it may follow any second. Instants lie in the years -262143 to 262142; arithmetic that leaves them has no
result.
-/
namespace PartitionLedger

open Calendar

structure Instant where
  seconds : Int
  nanos : Nat
  first_le : 86400 * yearStart (-262143) ≤ seconds
  lt_end : seconds < 86400 * yearStart 262143
  nanos_lt : nanos < 2000000000
deriving DecidableEq

namespace Instant

/-- Instants follow each other by the second, and within a second by the nanosecond. -/
instance : LT Instant where
  lt i j := i.seconds < j.seconds ∨ i.seconds = j.seconds ∧ i.nanos < j.nanos

instance : LE Instant where
  le i j := i.seconds < j.seconds ∨ i.seconds = j.seconds ∧ i.nanos ≤ j.nanos

instance (i j : Instant) : Decidable (i < j) :=
  inferInstanceAs (Decidable (i.seconds < j.seconds ∨ i.seconds = j.seconds ∧ i.nanos < j.nanos))

instance (i j : Instant) : Decidable (i ≤ j) :=
  inferInstanceAs (Decidable (i.seconds < j.seconds ∨ i.seconds = j.seconds ∧ i.nanos ≤ j.nanos))

instance : Std.IsLinearOrder Instant where
  le_refl i := Or.inr ⟨rfl, Nat.le_refl _⟩
  le_trans i j k h h' := by
    change _ ∨ _ at h h'
    change _ ∨ _
    omega
  le_antisymm i j h h' := by
    change _ ∨ _ at h h'
    have hs : i.seconds = j.seconds := by omega
    have hn : i.nanos = j.nanos := by omega
    cases i
    cases j
    cases hs
    cases hn
    rfl
  le_total i j := by
    change (_ ∨ _) ∨ (_ ∨ _)
    omega

instance : Std.LawfulOrderLT Instant where
  lt_iff i j := by
    change _ ∨ _ ↔ (_ ∨ _) ∧ ¬ (_ ∨ _)
    omega

instance : Max Instant where
  max i j := if i ≤ j then j else i

instance : Min Instant where
  min i j := if i ≤ j then i else j

/-- None for a second outside the years of instants, and for nanoseconds that no second has. -/
def ofUnix? (seconds : Int) (nanos : Nat) : Option Instant :=
  if h : 86400 * yearStart (-262143) ≤ seconds ∧ seconds < 86400 * yearStart 262143 ∧
      nanos < 2000000000 then
    some ⟨seconds, nanos, h.1, h.2.1, h.2.2⟩
  else none

def day (i : Instant) : Int := i.seconds / 86400

def year (i : Instant) : Int := yearOf i.day

/-- Month of the year, from 1. -/
def month (i : Instant) : Nat := (monthOf i.day % 12 + 1).toNat

/-- Day of the month, from 1. -/
def dayOfMonth (i : Instant) : Nat := (i.day - monthStart (monthOf i.day) + 1).toNat

def hour (i : Instant) : Nat := (i.seconds / 3600 % 24).toNat

def minute (i : Instant) : Nat := (i.seconds / 60 % 60).toNat

def IsLeap (i : Instant) : Prop := 1000000000 ≤ i.nanos

instance (i : Instant) : Decidable i.IsLeap := inferInstanceAs (Decidable (_ ≤ _))

/-- Second of the minute as it is written: a leap second at the end of a minute is number 60. -/
def second (i : Instant) : Nat := (i.seconds % 60).toNat + i.nanos / 1000000000

/-- Year that the week of the instant is counted in. -/
def weekYear (i : Instant) : Int := Calendar.weekYear (weekOf i.day)

/-- Number of the week within that year, from 1. -/
def week (i : Instant) : Nat := (weekNumber (weekOf i.day)).toNat

/-- Moves by whole seconds. A leap second is itself a second long: one second before 23:59:60.5 is
23:59:59.5, and one second after it 00:00:00.5. -/
def addSeconds? (i : Instant) (n : Int) : Option Instant :=
  if n = 0 ∨ ¬ i.IsLeap then ofUnix? (i.seconds + n) i.nanos
  else if 0 < n then ofUnix? (i.seconds + n) (i.nanos - 1000000000)
  else ofUnix? (i.seconds + 1 + n) (i.nanos - 1000000000)

/-- Moves by whole months and keeps the time of day. A day that the target month does not have
becomes its last day. -/
def addMonths? (i : Instant) (n : Int) : Option Instant :=
  let month := monthOf i.day + n
  let day := monthStart month + min (i.day - monthStart (monthOf i.day)) (monthLength month - 1)
  ofUnix? (86400 * day + i.seconds % 86400) i.nanos

/-- Years from 0 to 9999 have four digits, all others a sign and at least four. -/
def writeYear (year : Int) : List Char :=
  if year < 0 then '-' :: Text.atLeastFour year.natAbs
  else if year ≤ 9999 then Text.fixed 4 year.toNat
  else '+' :: Text.atLeastFour year.toNat

/-- The fraction of a second in three, six or nine digits, whichever is the first to hold it. -/
def writeFraction (nanos : Nat) : List Char :=
  if nanos = 0 then []
  else if nanos % 1000000 = 0 then '.' :: Text.fixed 3 (nanos / 1000000)
  else if nanos % 1000 = 0 then '.' :: Text.fixed 6 (nanos / 1000)
  else '.' :: Text.fixed 9 nanos

/-- The instant as messages show it, such as `2024-08-14 13:45:27.250 UTC`. -/
def text (i : Instant) : String :=
  String.ofList <|
    writeYear i.year ++ '-' :: Text.fixed 2 i.month ++ '-' :: Text.fixed 2 i.dayOfMonth ++
    ' ' :: Text.fixed 2 i.hour ++ ':' :: Text.fixed 2 i.minute ++ ':' :: Text.fixed 2 i.second ++
    writeFraction (i.nanos % 1000000000) ++ " UTC".toList

theorem ofUnix?_eq_some {i : Instant} {seconds : Int} {nanos : Nat} :
    ofUnix? seconds nanos = some i ↔ i.seconds = seconds ∧ i.nanos = nanos := by
  cases i with
  | mk s n hs he hn =>
    simp only [ofUnix?, Option.dite_none_right_eq_some, Option.some.injEq, mk.injEq]
    constructor
    · rintro ⟨_, rfl, rfl⟩
      exact ⟨rfl, rfl⟩
    · rintro ⟨rfl, rfl⟩
      exact ⟨⟨hs, he, hn⟩, rfl, rfl⟩

/-- The day that instants begin on. -/
theorem first_day : yearStart (-262143) = -96465292 := by decide

/-- The day that instants end before. -/
theorem end_day : yearStart 262143 = 95026237 := by decide

theorem ofUnix?_eq_none {seconds : Int} {nanos : Nat}
    (h : seconds < 86400 * yearStart (-262143) ∨ 86400 * yearStart 262143 ≤ seconds) :
    ofUnix? seconds nanos = none := by
  apply Option.eq_none_iff_forall_ne_some.mpr
  intro i hi
  have hs := (ofUnix?_eq_some.mp hi).1
  have hfirst := i.first_le
  have hend := i.lt_end
  omega

variable {i j : Instant} {n : Int}

/-- The nanoseconds of the later instant do not count against a whole second. -/
theorem whole_le_iff (hi : i.nanos = 0) : i ≤ j ↔ i.seconds ≤ j.seconds := by
  change i.seconds < j.seconds ∨ i.seconds = j.seconds ∧ i.nanos ≤ j.nanos ↔ _
  omega

theorem lt_whole_iff (hj : j.nanos = 0) : i < j ↔ i.seconds < j.seconds := by
  change i.seconds < j.seconds ∨ i.seconds = j.seconds ∧ i.nanos < j.nanos ↔ _
  omega

theorem seconds_le_of_le (h : i ≤ j) : i.seconds ≤ j.seconds := by
  change i.seconds < j.seconds ∨ i.seconds = j.seconds ∧ i.nanos ≤ j.nanos at h
  omega

theorem lt_of_addSeconds? (hn : 0 < n) (h : i.addSeconds? n = some j) : i.seconds < j.seconds := by
  simp only [addSeconds?, if_pos hn] at h
  split at h
  · have hs := (ofUnix?_eq_some.mp h).1
    omega
  · have hs := (ofUnix?_eq_some.mp h).1
    omega

theorem lt_of_addMonths? (hn : 0 < n) (h : i.addMonths? n = some j) : i.seconds < j.seconds := by
  have hs := (ofUnix?_eq_some.mp h).1
  have hle := monthOf_start_le i.day
  have hlt := lt_monthOf_succ_start i.day
  have hmono : monthStart (monthOf i.day + 1) ≤ monthStart (monthOf i.day + n) :=
    monthStart_mono (by omega)
  have hlength := (monthLength_bounds (monthOf i.day + n)).1
  have hday : i.day = i.seconds / 86400 := rfl
  omega

end Instant
end PartitionLedger

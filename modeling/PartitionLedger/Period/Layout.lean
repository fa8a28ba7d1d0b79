import PartitionLedger.Calendar.Civil
import PartitionLedger.Period.Grid
import PartitionLedger.Text.Split

/-!
How the partitions of a period are written: the fields of the text, and reading them back.
-/
namespace PartitionLedger

/-- A field of a partition's text. -/
inductive Field where
  | year | month | day | hour | minute | second | weekYear | week
deriving DecidableEq, Repr

namespace Field

/-- The field as a pattern for the formatting of dates shows it. -/
def directive : Field → String
  | year => "%Y"
  | month => "%m"
  | day => "%d"
  | hour => "%H"
  | minute => "%M"
  | second => "%S"
  | weekYear => "%G"
  | week => "W%V"

def write : Field → Instant → List Char
  | year, i => Instant.writeYear i.year
  | month, i => Text.fixed 2 i.month
  | day, i => Text.fixed 2 i.dayOfMonth
  | hour, i => Text.fixed 2 i.hour
  | minute, i => Text.fixed 2 i.minute
  | second, i => Text.fixed 2 i.second
  | weekYear, i => Instant.writeYear i.weekYear
  | week, i => 'W' :: Text.fixed 2 i.week

/-- The number in a field, in any zero padding. -/
def read? : Field → List Char → Option Nat
  | week, 'W' :: digits => Text.readNumber? digits
  | week, _ => none
  | _, digits => Text.readNumber? digits

end Field

namespace Period

/-- The fields of a partition's text, which stand in this order with hyphens between them. -/
def layout : Period → List Field
  | continuous | secondly => [.year, .month, .day, .hour, .minute, .second]
  | minutely => [.year, .month, .day, .hour, .minute]
  | hourly => [.year, .month, .day, .hour]
  | daily => [.year, .month, .day]
  | weekly => [.weekYear, .week]
  | monthly | quarterly => [.year, .month]
  | yearly => [.year]

def pattern (p : Period) : String := "-".intercalate (p.layout.map Field.directive)

/-- The text of the partition that starts at `i`. -/
def write (p : Period) (i : Instant) : String :=
  String.ofList (Text.join '-' (p.layout.map fun field => field.write i))

/-- One number for each field. -/
def readFields? : List Field → List (List Char) → Option (List Nat)
  | [], [] => some []
  | field :: fields, text :: texts => do
    let number ← field.read? text
    let numbers ← readFields? fields texts
    return number :: numbers
  | _, _ => none

/-- First second of the cell with these numbers; the fields that a period leaves out are at their
least. -/
def secondOf? (p : Period) (numbers : List Nat) : Option Int :=
  match p with
  | weekly => do
    let monday ← Calendar.mondayOf? (numbers.getD 0 0) (numbers.getD 1 0)
    return 86400 * monday
  | _ => do
    let day ← Calendar.dayOf? (numbers.getD 0 0) (numbers.getD 1 1) (numbers.getD 2 1)
    let time ← Calendar.timeOf? (numbers.getD 3 0) (numbers.getD 4 0) (numbers.getD 5 0)
    return 86400 * day + time

/-- The instant that a text names, in any zero padding and aligned or not. -/
def named? (p : Period) (value : String) : Option Instant := do
  let numbers ← readFields? p.layout (Text.pieces '-' value.toList)
  let seconds ← p.secondOf? numbers
  Instant.ofUnix? seconds 0

end Period
end PartitionLedger

import PartitionLedger.Text.Name

/-!
The update periods: how often a table is refreshed, and so how wide its partitions are.
-/
namespace PartitionLedger

/-- From the finest to the coarsest. Partitions of a table that is refreshed without pause are
addressed to the second. -/
inductive Period where
  | continuous | secondly | minutely | hourly | daily | weekly | monthly | quarterly | yearly
deriving DecidableEq, Repr

namespace Period

def all : List Period :=
  [continuous, secondly, minutely, hourly, daily, weekly, monthly, quarterly, yearly]

def name : Period → String
  | continuous => "CONTINUOUS"
  | secondly => "SECONDLY"
  | minutely => "MINUTELY"
  | hourly => "HOURLY"
  | daily => "DAILY"
  | weekly => "WEEKLY"
  | monthly => "MONTHLY"
  | quarterly => "QUARTERLY"
  | yearly => "YEARLY"

/-- Place of a period in the order from the finest to the coarsest. -/
def rank : Period → Nat
  | continuous => 0
  | secondly => 1
  | minutely => 2
  | hourly => 3
  | daily => 4
  | weekly => 5
  | monthly => 6
  | quarterly => 7
  | yearly => 8

instance : Ord Period where
  compare p q := compare p.rank q.rank

/-- A name that no period has. -/
structure Unknown where
  name : String
deriving DecidableEq, Repr

def Unknown.message (e : Unknown) : String := "unknown update period '" ++ e.name ++ "'"

/-- Reads a period's name in any case of letters, with or without blanks around it. -/
def read (given : String) : Except Unknown Period :=
  match Text.readLoosely? name all given with
  | some p => .ok p
  | none => .error ⟨given⟩

/-- Reads a period's name as it is written. -/
def readExactly (given : String) : Except Text.UnknownVariant Period :=
  Text.readExactly name all given

theorem mem_all (p : Period) : p ∈ all := by cases p <;> decide

theorem rank_inj {p q : Period} : p.rank = q.rank ↔ p = q := by
  cases p <;> cases q <;> decide

end Period
end PartitionLedger

import PartitionLedger.Ordered.Map
import PartitionLedger.Text.Name

/-!
The strategies that timelines are kept by, and the properties that each of them is stored in.
-/
namespace PartitionLedger

/-- The names under which a timeline is stored. -/
inductive Property where
  /-- The existing partitions. -/
  | partitions
  /-- The earliest existing partition. -/
  | first
  /-- The most recent existing partition. -/
  | latest
  /-- The missing partitions between the first and the latest. -/
  | holes
  /-- The strategy that the timeline was stored by. -/
  | storageClass
deriving DecidableEq, Repr

namespace Property

def all : List Property := [partitions, first, latest, holes, storageClass]

def name : Property → String
  | partitions => "partitions"
  | first => "first"
  | latest => "latest"
  | holes => "holes"
  | storageClass => "storage.class"

end Property

/-- A flat map of names to texts. -/
abbrev Bag := OrderedMap String String

inductive Strategy where
  /-- Keeps every existing partition. -/
  | storeAll
  /-- Keeps the two ends and the missing partitions between them. -/
  | endsAndHoles
  /-- Keeps the two ends only and takes all between them to exist. -/
  | continuous
deriving DecidableEq, Repr

namespace Strategy

def all : List Strategy := [storeAll, endsAndHoles, continuous]

def name : Strategy → String
  | storeAll => "store_all"
  | endsAndHoles => "ends_and_holes"
  | continuous => "continuous"

/-- The properties that a timeline of the strategy is stored in. -/
def properties : Strategy → List Property
  | storeAll => [.partitions]
  | endsAndHoles => [.first, .latest, .holes]
  | continuous => [.first, .latest]

/-- A name that no strategy has. -/
structure Unknown where
  name : String
deriving DecidableEq, Repr

def Unknown.message (e : Unknown) : String :=
  "unknown timeline strategy '" ++ e.name ++ "', expected one of " ++ ", ".intercalate (Strategy.all.map Strategy.name)

/-- Reads a strategy's name in any case of letters, with or without blanks around it. -/
def read (given : String) : Except Unknown Strategy :=
  match Text.readLoosely? name all given with
  | some s => .ok s
  | none => .error ⟨given⟩

/-- Reads a strategy's name as it is written. -/
def readExactly (given : String) : Except Text.UnknownVariant Strategy :=
  Text.readExactly name all given

theorem mem_all (s : Strategy) : s ∈ all := by cases s <;> decide

end Strategy
end PartitionLedger

import PartitionLedger.Timeline.Strategy

/-!
The store that holds a bag of properties for each table.

Reads and writes can be made to fail, and those that registries make are counted, failed ones
included.
-/
namespace PartitionLedger

inductive StoreError where
  | readsFailing (table : String)
  | writesFailing (table : String)
deriving DecidableEq, Repr

def StoreError.message : StoreError → String
  | readsFailing table => "reads of storage table " ++ table ++ " are failing"
  | writesFailing table => "writes to storage table " ++ table ++ " are failing"

structure Store where
  tables : OrderedMap String Bag
  failReads : Bool
  failWrites : Bool
  reads : Nat
  writes : Nat
deriving DecidableEq

namespace Store

def empty : Store := ⟨∅, false, false, 0, 0⟩

/-- The bag of a table, empty for a table that has none. -/
def table (s : Store) (name : String) : Bag := (s.tables.get? name).getD ∅

/-- Puts a bag in place of a table's. -/
def setTable (s : Store) (name : String) (bag : Bag) : Store :=
  { s with tables := s.tables.insert name bag }

/-- Writes properties over those of a table and keeps the others. -/
def upsert (s : Store) (name : String) (bag : Bag) : Except StoreError Store :=
  if s.failWrites then .error (.writesFailing name)
  else .ok (s.setTable name ((s.table name).upsert bag))

/-- A read by a registry. -/
def read (s : Store) (name : String) : Store × Except StoreError Bag :=
  ({ s with reads := s.reads + 1 },
    if s.failReads then .error (.readsFailing name) else .ok (s.table name))

/-- A write by a registry. -/
def write (s : Store) (name : String) (bag : Bag) : Store × Except StoreError Unit :=
  let s := { s with writes := s.writes + 1 }
  match s.upsert name bag with
  | .ok s => (s, .ok ())
  | .error e => (s, .error e)

end Store
end PartitionLedger

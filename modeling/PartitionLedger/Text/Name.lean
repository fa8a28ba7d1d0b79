import PartitionLedger.Text.Blank

/-!
Reading a name out of a fixed list of names, either loosely (blanks around it and the case of ASCII
letters do not count) or exactly.
-/
namespace PartitionLedger.Text
variable {α : Type}

/-- Whether `given` is `name` up to surrounding blanks and the case of ASCII letters. -/
def namesLoosely (given name : String) : Bool :=
  (trim given.toList).map Char.toLower == name.toList.map Char.toLower

def readLoosely? (name : α → String) (all : List α) (given : String) : Option α :=
  all.find? fun a => namesLoosely given (name a)

/-- A text that is none of the names that were expected. -/
structure UnknownVariant where
  given : String
  expected : List String
deriving DecidableEq, Repr

def readExactly (name : α → String) (all : List α) (given : String) : Except UnknownVariant α :=
  match all.find? fun a => name a == given with
  | some a => .ok a
  | none => .error ⟨given, all.map name⟩

def UnknownVariant.message (e : UnknownVariant) : String :=
  "unknown variant `" ++ e.given ++ "`, expected one of " ++
    ", ".intercalate (e.expected.map fun name => "`" ++ name ++ "`")

end PartitionLedger.Text

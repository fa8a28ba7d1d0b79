import PartitionLedger.Registry.Store
import PartitionLedger.Timeline.Error

/-!
Why a registry cannot give or change a timeline.
-/
namespace PartitionLedger

inductive RegistryError where
  /-- The timeline refuses, or its stored properties stand for none. -/
  | timeline (error : TimelineError)
  /-- The stored properties stand for an inconsistent timeline. -/
  | inconsistent (key : Key)
  | load (table : String) (error : StoreError)
  | persist (key : Key) (error : StoreError)
deriving DecidableEq

def RegistryError.message : RegistryError → String
  | timeline error => error.message
  | inconsistent key => "timeline " ++ key.text ++ " loaded from the metastore is inconsistent"
  | load table error =>
    "failed to load properties of storage table " ++ table ++ ": " ++ error.message
  | persist key error => "failed to persist timeline " ++ key.text ++ ": " ++ error.message

end PartitionLedger

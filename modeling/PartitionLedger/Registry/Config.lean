import PartitionLedger.Period.Basic
import PartitionLedger.Timeline.Strategy

/-!
Which strategy new timelines are kept by, for each period.
-/
namespace PartitionLedger

structure Config where
  default : Strategy
  overrides : Period → Option Strategy

namespace Config

/-- One strategy for all periods. -/
def ofStrategy (strategy : Strategy) : Config := ⟨strategy, fun _ => none⟩

def withOverride (config : Config) (p : Period) (strategy : Strategy) : Config :=
  { config with overrides := fun q => if q = p then some strategy else config.overrides q }

def strategyFor (config : Config) (p : Period) : Strategy := (config.overrides p).getD config.default

/-- Every partition is kept, except of tables that are refreshed without pause. -/
def standard : Config := (ofStrategy .storeAll).withOverride .continuous .continuous

instance : Inhabited Config := ⟨standard⟩

end Config
end PartitionLedger

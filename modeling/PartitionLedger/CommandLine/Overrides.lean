import PartitionLedger.Registry.Config
import PartitionLedger.Text.Split

/-!
Strategies for single periods, as one text of pairs such as `DAILY:ends_and_holes, HOURLY:store_all`.

Blanks may stand around the text, each pair and each name, and letters may be of any case.
-/
namespace PartitionLedger

inductive OverrideError where
  /-- The part between two commas has no colon. -/
  | notAPair (part : String)
  | unknownPeriod (error : Period.Unknown)
  | unknownStrategy (error : Strategy.Unknown)
  | repeated (period : Period)
deriving DecidableEq

def OverrideError.message : OverrideError → String
  | notAPair part => "invalid override - expected 'PERIOD:strategy' got '" ++ part ++ "'"
  | unknownPeriod error => error.message
  | unknownStrategy error => error.message
  | repeated period => "update period '" ++ period.name ++ "' passed multiple times"

/-- The strategies of the periods that have one of their own. -/
abbrev Overrides := Period → Option Strategy

namespace Overrides

def none : Overrides := fun _ => Option.none

def set (overrides : Overrides) (p : Period) (strategy : Strategy) : Overrides :=
  fun q => if q = p then some strategy else overrides q

/-- Reads one pair, which stands before and after the first colon. -/
def readPair (part : List Char) : Except OverrideError (Period × Strategy) :=
  match Text.cut? ':' (Text.trim part) with
  | Option.none => .error (.notAPair (String.ofList part))
  | some (period, strategy) => do
    let period ← (Period.read (String.ofList period)).mapError .unknownPeriod
    let strategy ← (Strategy.read (String.ofList strategy)).mapError .unknownStrategy
    return (period, strategy)

/-- Reads the pairs from left to right and stops at the first that is at fault. -/
def readPairs (overrides : Overrides) : List (List Char) → Except OverrideError Overrides
  | [] => .ok overrides
  | part :: rest => do
    let (period, strategy) ← readPair part
    if (overrides period).isSome then .error (.repeated period)
    else readPairs (overrides.set period strategy) rest

/-- A blank text has no pairs. -/
def read (given : String) : Except OverrideError Overrides :=
  let text := Text.trim given.toList
  if text = [] then .ok none else readPairs none (Text.pieces ',' text)

end Overrides

/-- Tables that are refreshed without pause have the strategy without gaps, unless another one is
given for them. -/
def Config.ofOverrides (default : Strategy) (overrides : Overrides) : Config :=
  ⟨default, fun p => overrides p <|> if p = .continuous then some .continuous else none⟩

end PartitionLedger

import PartitionLedger.Timeline.Key
import PartitionLedger.Timeline.Strategy

/-!
Where the properties of a timeline stand among those of its table, whose timelines share one bag.

The name of a property is put behind the scope of the timeline's key. Only the names of timeline
properties are taken out again, so that a column named `dt` does not see those of a column `dt.x`.
-/
namespace PartitionLedger

/-- What the names of all timeline properties of a table start with. -/
def timelineScope : String := "cube.storagetable.partition.timeline.cache."

/-- A mark that any timeline of the table has been stored. -/
def timelinesPresent : String := timelineScope ++ "present"

namespace Key

/-- What the names of the properties of a key's timeline start with. -/
def scope (k : Key) : String := timelineScope ++ k.period.name ++ "." ++ k.column ++ "."

/-- The properties of a timeline as they are stored in its table. Every property that the strategy
owns is among them, empty if it has no value, so that none is left from before. -/
def toTable (k : Key) (strategy : Strategy) (bag : Bag) : Bag :=
  let owned := strategy.properties.map fun property =>
    (k.scope ++ property.name, (bag.get? property.name).getD "")
  let others := (bag.entries.filter fun entry => entry.1 ∉ strategy.properties.map Property.name).map
    fun entry => (k.scope ++ entry.1, entry.2)
  OrderedMap.ofList <| owned ++ others ++
    [(k.scope ++ Property.storageClass.name, strategy.name), (timelinesPresent, "true")]

/-- What stands behind `scope` in a name. -/
def afterScope? (scope name : String) : Option String :=
  if scope.toList.isPrefixOf name.toList then
    some (String.ofList (name.toList.drop scope.toList.length))
  else none

/-- The properties of the key's timeline in the bag of its table. The names of a scope follow each
other in the order of names, so the search ends at the first name beyond them. -/
def ofTable (k : Key) (table : Bag) : Bag :=
  let names := (table.entries.dropWhile fun entry => entry.1 < k.scope).takeWhile
    fun entry => (afterScope? k.scope entry.1).isSome
  OrderedMap.ofList <| names.filterMap fun entry => do
    let name ← afterScope? k.scope entry.1
    if name ∈ Property.all.map Property.name then some (name, entry.2) else none

end Key
end PartitionLedger

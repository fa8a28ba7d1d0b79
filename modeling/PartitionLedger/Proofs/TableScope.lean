import PartitionLedger.Proofs.StoredTimeline
import PartitionLedger.Proofs.Text
import PartitionLedger.Registry.Basic

/-!
The timelines of a table share its bag without sharing a property: what is taken out for a key is
what stands behind its scope, and what is written for a key stands behind no other scope.
-/
namespace PartitionLedger

section Order
variable {s x y : List Char}

/-- Texts come after those they start with. -/
theorem not_lt_of_isPrefix (h : s <+: x) : ¬ x < s := by
  intro hlt
  induction s generalizing x with
  | nil => exact List.not_lt_nil x hlt
  | cons c s ih =>
    obtain ⟨t, rfl⟩ := h
    rw [List.cons_append, List.cons_lt_cons_iff] at hlt
    rcases hlt with hlt | ⟨-, hlt⟩
    · exact Std.lt_irrefl hlt
    · exact ih (List.prefix_append s t) hlt

/-- Between a text and one that starts with it, all start with it. -/
theorem isPrefix_of_between (hy : s <+: y) (hs : ¬ x < s) (hxy : x < y) : s <+: x := by
  induction s generalizing x y with
  | nil => exact List.nil_prefix
  | cons c s ih =>
    obtain ⟨t, rfl⟩ := hy
    cases x with
    | nil => exact absurd (List.nil_lt_cons c s) hs
    | cons d x =>
      rw [List.cons_lt_cons_iff] at hs
      rw [List.cons_append, List.cons_lt_cons_iff] at hxy
      rcases hxy with hlt | ⟨rfl, hlt⟩
      · exact absurd (Or.inl hlt) hs
      · have hrest := ih (List.prefix_append s t) (fun hx => hs (Or.inr ⟨rfl, hx⟩)) hlt
        exact List.cons_prefix_cons.mpr ⟨rfl, hrest⟩

end Order

namespace Key
variable {k l : Key} {scope name rest : String} {table : Bag}

theorem afterScope?_eq_some : afterScope? scope name = some rest ↔ name = scope ++ rest := by
  simp only [afterScope?, List.isPrefixOf_iff_prefix]
  constructor
  · intro h
    split at h
    · rename_i hp
      obtain ⟨t, ht⟩ := hp
      cases h
      rw [← ht, List.drop_left]
      apply String.toList_inj.mp
      rw [String.toList_append, String.toList_ofList, ht]
    · cases h
  · rintro rfl
    rw [String.toList_append, if_pos (List.prefix_append _ _), List.drop_left, String.ofList_toList]

theorem isPrefix_of_isSome (h : (afterScope? scope name).isSome) : scope.toList <+: name.toList := by
  obtain ⟨rest, hr⟩ := Option.isSome_iff_exists.mp h
  rw [afterScope?_eq_some.mp hr, String.toList_append]
  exact List.prefix_append _ _

theorem isSome_of_isPrefix (h : scope.toList <+: name.toList) : (afterScope? scope name).isSome := by
  obtain ⟨t, ht⟩ := h
  have hn : name = scope ++ String.ofList t := by
    apply String.toList_inj.mp
    rw [String.toList_append, String.toList_ofList, ht]
  rw [afterScope?_eq_some.mpr hn]
  rfl

/-- From the scope on, the names of the scope come before all others. -/
theorem takeWhile_scope {es : List (String × String)} (ha : es.Pairwise (·.1 < ·.1))
    (hs : ∀ e ∈ es, ¬ e.1 < scope) :
    (es.takeWhile fun e => (afterScope? scope e.1).isSome) =
      es.filter fun e => (afterScope? scope e.1).isSome := by
  induction es with
  | nil => rfl
  | cons e rest ih =>
    obtain ⟨hlt, hrest⟩ := List.pairwise_cons.mp ha
    have hrestScope : ∀ f ∈ rest, ¬ f.1 < scope := fun f hf => hs f (List.mem_cons_of_mem e hf)
    by_cases he : (afterScope? scope e.1).isSome
    · rw [List.takeWhile_cons, List.filter_cons, if_pos he, if_pos he, ih hrest hrestScope]
    · rw [List.takeWhile_cons, List.filter_cons, if_neg he, if_neg he]
      symm
      rw [List.filter_eq_nil_iff]
      intro f hf hsome
      have hbetween := isPrefix_of_between (isPrefix_of_isSome hsome)
        (hs e List.mem_cons_self) (hlt f hf)
      exact he (isSome_of_isPrefix hbetween)

/-- The search for the names of a scope finds all of them. -/
theorem names_of_scope {es : List (String × String)} (ha : es.Pairwise (·.1 < ·.1)) :
    ((es.dropWhile fun e => e.1 < scope).takeWhile fun e => (afterScope? scope e.1).isSome) =
      es.filter fun e => (afterScope? scope e.1).isSome := by
  induction es with
  | nil => rfl
  | cons e rest ih =>
    obtain ⟨hlt, hrest⟩ := List.pairwise_cons.mp ha
    by_cases he : e.1 < scope
    · have hnot : ¬ (afterScope? scope e.1).isSome :=
        fun hsome => not_lt_of_isPrefix (isPrefix_of_isSome hsome) he
      rw [List.dropWhile_cons_of_pos (by simpa using he), List.filter_cons, if_neg hnot, ih hrest]
    · rw [List.dropWhile_cons_of_neg (by simpa using he)]
      apply takeWhile_scope ha
      intro f hf hfs
      rcases List.mem_cons.mp hf with rfl | hf
      · exact he hfs
      · exact he (Std.lt_trans (hlt f hf) hfs)

/-- The property that an entry of a table's bag is for a key. -/
def taken? (k : Key) (entry : String × String) : Option (String × String) := do
  let name ← afterScope? k.scope entry.1
  if name ∈ Property.all.map Property.name then some (name, entry.2) else none

theorem taken?_eq_some {e : String × String} {v : String} :
    k.taken? e = some (name, v) ↔
      e = (k.scope ++ name, v) ∧ name ∈ Property.all.map Property.name := by
  obtain ⟨x, w⟩ := e
  constructor
  · intro h
    obtain ⟨rest, hr, hv⟩ := Option.bind_eq_some_iff.mp h
    split at hv
    · rename_i hm
      cases hv
      exact ⟨Prod.ext (afterScope?_eq_some.mp hr) rfl, hm⟩
    · cases hv
  · rintro ⟨he, hm⟩
    cases he
    exact Option.bind_eq_some_iff.mpr ⟨name, afterScope?_eq_some.mpr rfl, if_pos hm⟩

theorem ofTable_eq (k : Key) (table : Bag) :
    k.ofTable table = OrderedMap.ofList (table.entries.filterMap k.taken?) := by
  have hnames : (fun entry : String × String => if (afterScope? k.scope entry.1).isSome then (do
      let name ← afterScope? k.scope entry.1
      if name ∈ Property.all.map Property.name then some (name, entry.2) else none) else none) =
      k.taken? := by
    funext e
    rw [taken?]
    cases afterScope? k.scope e.1 <;> rfl
  rw [ofTable, names_of_scope table.ascending, List.filterMap_filter, hnames]

theorem nodup_taken (k : Key) (table : Bag) : ((table.entries.filterMap k.taken?).map (·.1)).Nodup := by
  rw [List.Nodup, List.pairwise_map, List.pairwise_filterMap]
  apply table.ascending.imp
  intro a b hlt x hx y hy he
  obtain ⟨ha, -⟩ := taken?_eq_some.mp hx
  obtain ⟨hb, -⟩ := taken?_eq_some.mp hy
  rw [ha, hb, he] at hlt
  exact Std.lt_irrefl hlt

/-- What is taken out of a table for a key is what stands behind the key's scope. -/
theorem get?_ofTable {name : String} (h : name ∈ Property.all.map Property.name) :
    (k.ofTable table).get? name = table.get? (k.scope ++ name) := by
  apply Option.ext
  intro v
  rw [ofTable_eq, OrderedMap.get?_ofList (nodup_taken k table), OrderedMap.get?_eq_some_iff,
    List.mem_filterMap]
  constructor
  · rintro ⟨e, he, htaken⟩
    obtain ⟨rfl, -⟩ := taken?_eq_some.mp htaken
    exact he
  · intro hv
    exact ⟨(k.scope ++ name, v), hv, taken?_eq_some.mpr ⟨rfl, h⟩⟩

theorem get?_ofTable_other {name : String} (h : name ∉ Property.all.map Property.name) :
    (k.ofTable table).get? name = none := by
  apply Option.eq_none_iff_forall_ne_some.mpr
  intro v hv
  rw [ofTable_eq, OrderedMap.get?_ofList (nodup_taken k table), List.mem_filterMap] at hv
  obtain ⟨e, -, htaken⟩ := hv
  exact h (taken?_eq_some.mp htaken).2

theorem name_mem_all (property : Property) : property.name ∈ Property.all.map Property.name := by
  cases property <;> decide

/-- Only the properties behind the key's scope decide what is taken out for it. -/
theorem ofTable_congr {table' : Bag}
    (h : ∀ property : Property,
      table.get? (k.scope ++ property.name) = table'.get? (k.scope ++ property.name)) :
    k.ofTable table = k.ofTable table' := by
  apply OrderedMap.ext_get?
  intro name
  by_cases hm : name ∈ Property.all.map Property.name
  · obtain ⟨property, -, rfl⟩ := List.mem_map.mp hm
    rw [get?_ofTable hm, get?_ofTable hm, h]
  · rw [get?_ofTable_other hm, get?_ofTable_other hm]

theorem period_name_inj {p q : Period} : p.name = q.name ↔ p = q := by
  cases p <;> cases q <;> decide

theorem dot_not_mem_name (p : Period) : '.' ∉ p.name.toList := by
  cases p <;> decide

/-- The words behind the last dot of property names are different. -/
theorem property_of_last {p q : Property}
    (h : (Text.pieces '.' p.name.toList).getLast? = (Text.pieces '.' q.name.toList).getLast?) :
    p = q := by
  revert h
  cases p <;> cases q <;> decide

theorem toList_scope (k : Key) (name : String) :
    (k.scope ++ name).toList = timelineScope.toList ++
      (k.period.name.toList ++ '.' :: (k.column.toList ++ '.' :: name.toList)) := by
  simp only [scope, String.toList_append, List.append_assoc]
  rfl

/-- No two timelines of a table share the name of a property. -/
theorem scope_append_inj {p q : Property} (ht : k.table = l.table)
    (h : k.scope ++ p.name = l.scope ++ q.name) : k = l ∧ p = q := by
  have hl := congrArg String.toList h
  rw [toList_scope, toList_scope] at hl
  obtain ⟨hperiod, hrest⟩ := Text.append_separator_inj (dot_not_mem_name _) (dot_not_mem_name _)
    (List.append_cancel_left hl)
  have hlast := congrArg (fun text => (Text.pieces '.' text).getLast?) hrest
  simp only [Text.getLast?_pieces_append] at hlast
  obtain rfl := property_of_last hlast
  have hcolumn : k.column = l.column := String.toList_inj.mp (List.append_cancel_right hrest)
  have hperiod : k.period = l.period := period_name_inj.mp (String.toList_inj.mp hperiod)
  obtain ⟨table, period, column⟩ := k
  cases ht
  cases hperiod
  cases hcolumn
  exact ⟨rfl, rfl⟩

/-- The mark of a table is not the name of a property. -/
theorem scope_append_ne_present (k : Key) (name : String) : k.scope ++ name ≠ timelinesPresent := by
  intro h
  have hl := congrArg String.toList h
  rw [toList_scope, timelinesPresent, String.toList_append] at hl
  have hdot : '.' ∈ "present".toList := by
    rw [← List.append_cancel_left hl]
    simp
  exact absurd hdot (by decide)

section Written
variable {p : Period} (t : Contents p)

/-- The properties that a timeline is written to its table by. -/
def written (k : Key) (t : Contents p) : List (String × String) :=
  (t.strategy.properties.map fun property =>
    (k.scope ++ property.name, (t.valueOf property).getD "")) ++
    [(k.scope ++ Property.storageClass.name, t.strategy.name), (timelinesPresent, "true")]

theorem toTable_encode (k : Key) : k.toTable t.strategy t.encode = OrderedMap.ofList (k.written t) := by
  have hothers : (t.encode.entries.filter fun entry =>
      entry.1 ∉ t.strategy.properties.map Property.name) = [] := by
    rw [List.filter_eq_nil_iff]
    intro e he
    simpa using Contents.owned_of_mem_encode he
  simp only [toTable, written, hothers, t.get?_encode, List.map_nil, List.append_nil]

theorem nodup_properties (s : Strategy) : (s.properties ++ [Property.storageClass]).Nodup := by
  cases s <;> decide

theorem map_written (k : Key) : (k.written t).map (·.1) =
    (t.strategy.properties ++ [Property.storageClass]).map (fun property => k.scope ++ property.name) ++
      [timelinesPresent] := by
  simp [written]

theorem nodup_written (k : Key) : ((k.written t).map (·.1)).Nodup := by
  rw [map_written, List.nodup_append]
  refine ⟨?_, by simp, ?_⟩
  · rw [List.Nodup, List.pairwise_map]
    apply (nodup_properties t.strategy).imp
    intro p q hne he
    exact hne (scope_append_inj rfl he).2
  · intro name hname present hpresent
    obtain ⟨property, -, rfl⟩ := List.mem_map.mp hname
    rw [List.mem_singleton.mp hpresent]
    exact k.scope_append_ne_present property.name

theorem get?_toTable_owned (k : Key) {property : Property} (h : property ∈ t.strategy.properties) :
    (k.toTable t.strategy t.encode).get? (k.scope ++ property.name) =
      some ((t.valueOf property).getD "") := by
  rw [toTable_encode, OrderedMap.get?_ofList (nodup_written t k), written]
  exact List.mem_append_left _ (List.mem_map_of_mem h)

theorem get?_toTable_storageClass (k : Key) :
    (k.toTable t.strategy t.encode).get? (k.scope ++ Property.storageClass.name) =
      some t.strategy.name := by
  rw [toTable_encode, OrderedMap.get?_ofList (nodup_written t k), written]
  exact List.mem_append_right _ List.mem_cons_self

/-- Nothing is written for another timeline of the table. -/
theorem get?_toTable_other (ht : k.table = l.table) (hne : k ≠ l) (property : Property) :
    (k.toTable t.strategy t.encode).get? (l.scope ++ property.name) = none := by
  apply Option.eq_none_iff_forall_ne_some.mpr
  intro v hv
  rw [toTable_encode, OrderedMap.get?_ofList (nodup_written t k)] at hv
  have hname := List.mem_map_of_mem (f := Prod.fst) hv
  rw [map_written] at hname
  rcases List.mem_append.mp hname with hname | hname
  · obtain ⟨q, -, he⟩ := List.mem_map.mp hname
    exact hne (scope_append_inj ht he).1
  · exact l.scope_append_ne_present property.name (List.mem_singleton.mp hname)

/-- Writing a timeline leaves the other timelines of its table as they are. -/
theorem ofTable_upsert_other (ht : k.table = l.table) (hne : k ≠ l) (table : Bag) :
    l.ofTable (table.upsert (k.toTable t.strategy t.encode)) = l.ofTable table := by
  apply ofTable_congr
  intro property
  rw [OrderedMap.get?_upsert, get?_toTable_other t ht hne, Option.none_or]

/-- What was written for a key is taken out for it. -/
theorem text_ofTable_upsert (k : Key) (table : Bag) {property : Property}
    (h : property ∈ t.strategy.properties) :
    (k.ofTable (table.upsert (k.toTable t.strategy t.encode))).text property =
      t.encode.text property := by
  rw [Bag.text, get?_ofTable (name_mem_all property), OrderedMap.get?_upsert,
    get?_toTable_owned t k h, t.text_encode]
  rfl

end Written

/-- Timelines share the bag of their table, whatever their columns are named. What is taken out for a
key are the entries behind its scope that are named as properties, and writing a timeline leaves what
is taken out for another key of the table. -/
theorem timelines_share_table (table : Bag) :
    (∀ (k : Key) (name value : String), (name, value) ∈ (k.ofTable table).entries ↔
      (∃ property : Property, name = property.name) ∧ (k.scope ++ name, value) ∈ table.entries) ∧
    ∀ (t : Timeline) (k : Key), k.table = t.key.table →
      k.period ≠ t.key.period ∨ k.column ≠ t.key.column →
        k.ofTable (table.upsert (t.key.toTable t.strategy t.encode)) = k.ofTable table := by
  constructor
  · intro k name value
    rw [← OrderedMap.get?_eq_some_iff, ← OrderedMap.get?_eq_some_iff]
    constructor
    · intro h
      by_cases hname : name ∈ Property.all.map Property.name
      · obtain ⟨property, -, rfl⟩ := List.mem_map.mp hname
        exact ⟨⟨property, rfl⟩, get?_ofTable hname ▸ h⟩
      · rw [get?_ofTable_other hname] at h
        cases h
    · rintro ⟨⟨property, rfl⟩, h⟩
      rw [get?_ofTable (name_mem_all property), h]
  · intro t k htable hne
    apply ofTable_upsert_other t.contents htable.symm
    rintro rfl
    rcases hne with hne | hne <;> exact hne rfl

/-- A column named like the start of a property does not see or hide that property. -/
theorem timelines_share_table_of_dotted_column :
    let k : Key := ⟨"events", .daily, "dt"⟩
    let t := (Timeline.empty ⟨"events", .daily, "dt.storage"⟩ .storeAll).edits
      [.add ⟨.daily, 3, by decide, by decide⟩]
    let table : Bag := OrderedMap.ofList [(k.scope ++ "storage.class", "continuous")]
    ("storage.class", "continuous") ∈ (k.ofTable table).entries ∧
      k.ofTable (table.upsert (t.key.toTable t.strategy t.encode)) = k.ofTable table := by
  intro k t table
  obtain ⟨htaken, hother⟩ := timelines_share_table table
  refine ⟨(htaken k _ _).mpr ⟨⟨.storageClass, rfl⟩, ?_⟩, hother t k rfl (Or.inr (by decide))⟩
  exact List.mem_singleton.mpr rfl

end Key

theorem Strategy.read_name (s : Strategy) : Strategy.read s.name = .ok s := by
  cases s <;> rfl

namespace Registry

/-- A consistent timeline that was written to its table is the one that the table stands for, whatever
else is in the table and whatever the configuration is. -/
theorem timelineOf_written {t : Timeline} (h : t.Consistent) (config : Config) (table : Bag) :
    timelineOf config t.key (table.upsert (t.key.toTable t.strategy t.encode)) = .ok t := by
  obtain ⟨key, contents⟩ := t
  generalize hbag : key.ofTable (table.upsert (key.toTable contents.strategy contents.encode)) = bag
  have hclass : bag.get? Property.storageClass.name = some contents.strategy.name := by
    rw [← hbag, Key.get?_ofTable (Key.name_mem_all _), OrderedMap.get?_upsert,
      Key.get?_toTable_storageClass]
    rfl
  have hempty : bag.isEmpty = false := by
    rcases bag with ⟨_ | ⟨e, rest⟩, ha⟩
    · cases hclass
    · rfl
  have htext : ∀ property ∈ contents.strategy.properties,
      bag.text property = contents.encode.text property := by
    intro property hp
    rw [← hbag]
    exact Key.text_ofTable_upsert contents key table hp
  have hload : (Timeline.empty key contents.strategy).load bag = (⟨key, contents⟩, .ok true) := by
    have hsame := Timeline.load_congr (t := ⟨key, contents⟩)
      (u := Timeline.empty key contents.strategy) rfl (Timeline.strategy_empty _ _) htext
    rw [hsame, ← decide_eq_true h]
    exact Timeline.load_encode ⟨key, contents⟩
  simp only [timelineOf, strategyOf, Timeline.strategy, Timeline.encode, hbag, hempty, hclass,
    Strategy.read_name, hload]
  rfl

end Registry
end PartitionLedger

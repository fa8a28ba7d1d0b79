import PartitionLedger.Proofs.CanonicalText
import PartitionLedger.Proofs.Existing

/-!
A timeline is read back from the properties it is stored in, consistent or not.

For each reader there is one lemma that says what it accepts and one that says which property a
defect is of. What changes leave of a timeline plays no part: its key and its strategy stay.
-/
namespace PartitionLedger

namespace CellSet
variable {p : Period} {cells : CellSet p}

theorem eq_empty_iff : cells = ∅ ↔ cells.toList = [] := by
  constructor
  · rintro rfl
    rfl
  · intro h
    cases cells
    cases h
    rfl

theorem write_eq_empty : cells.write = "" ↔ cells = ∅ := by
  rw [eq_empty_iff]
  obtain ⟨l, ascending⟩ := cells
  rcases l with _ | ⟨c, _ | ⟨d, rest⟩⟩
  · exact iff_of_true rfl rfl
  · simpa [write, Text.join] using c.text_ne_empty
  · simp [write, Text.join]

theorem pieces_write (h : cells ≠ ∅) :
    Text.pieces ',' cells.write.toList = cells.toList.map fun c => c.text.toList := by
  rw [write, String.toList_ofList]
  apply Text.pieces_join
  · simpa [eq_empty_iff] using h
  · intro t ht
    obtain ⟨c, _, rfl⟩ := List.mem_map.mp ht
    exact c.comma_not_mem_text

/-- Canonical texts with commas between them are what the set of their cells is written as. -/
theorem write_of_pieces {value : String}
    (h : Text.pieces ',' value.toList = cells.toList.map fun c => c.text.toList) :
    value = cells.write := by
  rw [write, ← h, Text.join_pieces, String.ofList_toList]

end CellSet

namespace Bag
variable {p : Period} {bag bag' : Bag} {property : Property} {e : Corruption}

/-- The text of a property, empty if it is absent. -/
def text (bag : Bag) (property : Property) : String := (bag.get? property.name).getD ""

theorem value?_of_empty (h : bag.text property = "") : bag.value? property = none := by
  cases hv : bag.get? property.name with
  | none => simp [value?, hv]
  | some value => simp_all [text, value?, Option.filter_some]

theorem value?_of_ne_empty (h : bag.text property ≠ "") :
    bag.value? property = some (bag.text property) := by
  cases hv : bag.get? property.name with
  | none => simp [text, hv] at h
  | some value => simp_all [text, value?, Option.filter_some]

theorem getD_value? (bag : Bag) (property : Property) :
    (bag.value? property).getD "" = bag.text property := by
  by_cases h : bag.text property = ""
  · rw [value?_of_empty h, h]
    rfl
  · rw [value?_of_ne_empty h]
    rfl

theorem value?_congr (h : bag.text property = bag'.text property) :
    bag.value? property = bag'.value? property := by
  by_cases he : bag.text property = ""
  · rw [value?_of_empty he, value?_of_empty (h ▸ he)]
  · rw [value?_of_ne_empty he, value?_of_ne_empty (h ▸ he), h]

theorem readCell_eq_ok {value : String} {c : Cell p} :
    readCell p property value = .ok c ↔ value = c.text :=
  mapError_eq_ok.trans Cell.read_eq_ok

theorem readCell_error {value : String} (h : readCell p property value = .error e) :
    e.property = property := by
  obtain ⟨_, -, rfl⟩ := mapError_eq_error.mp h
  rfl

theorem readOne?_eq_ok {c : Option (Cell p)} :
    readOne? p bag property = .ok c ↔ bag.text property = (c.map Cell.text).getD "" := by
  have hne : ∀ c : Cell p, "" ≠ c.text := fun c => c.text_ne_empty.symm
  by_cases htext : bag.text property = ""
  · simp only [readOne?, value?_of_empty htext, htext, Except.ok.injEq]
    cases c <;> simp [hne]
  · simp only [readOne?, value?_of_ne_empty htext, map_eq_ok, readCell_eq_ok]
    cases c <;> simp [htext]

theorem readOne?_error (h : readOne? p bag property = .error e) : e.property = property := by
  simp only [readOne?] at h
  split at h
  · cases h
  · exact readCell_error (map_eq_error.mp h)

/-- A list is read if its first text is canonical, of a cell after those before it, and the rest is
read from that cell on. -/
theorem readElements_cons_eq_ok {element : List Char} {rest : List (List Char)}
    {before : Option (Cell p)} {r : { cells : CellSet p // ∀ b ∈ before, ∀ c ∈ cells, b < c }} :
    readElements p property before (element :: rest) = .ok r ↔
      ∃ c tail, element = c.text.toList ∧ (∀ b ∈ before, b < c) ∧
        readElements p property (some c) rest = .ok tail ∧
          r.val.toList = c :: tail.val.toList := by
  simp only [readElements]
  constructor
  · intro h
    split at h
    · cases h
    · obtain ⟨c, hc, h⟩ := bind_eq_ok.mp h
      split at h
      · rename_i hlt
        obtain ⟨tail, htail, h⟩ := bind_eq_ok.mp h
        cases h
        have helement : element = c.text.toList := by
          rw [← readCell_eq_ok.mp hc, String.toList_ofList]
        exact ⟨c, tail, helement, hlt, htail, rfl⟩
      · cases h
  · rintro ⟨c, tail, rfl, hlt, htail, hr⟩
    have hne : c.text.toList ≠ [] := fun he => c.text_ne_empty (String.toList_eq_nil_iff.mp he)
    have hread : readCell p property (String.ofList c.text.toList) = .ok c :=
      readCell_eq_ok.mpr String.ofList_toList
    rw [if_neg hne]
    refine bind_eq_ok.mpr ⟨c, hread, ?_⟩
    rw [dif_pos hlt]
    refine bind_eq_ok.mpr ⟨tail, htail, ?_⟩
    obtain ⟨⟨cells, ascending⟩, after⟩ := r
    cases hr
    rfl

/-- Texts are read as the cells whose canonical texts they are, if those ascend. -/
theorem readElements_eq_ok {texts : List (List Char)} {before : Option (Cell p)}
    {r : { cells : CellSet p // ∀ b ∈ before, ∀ c ∈ cells, b < c }} :
    readElements p property before texts = .ok r ↔
      texts = r.val.toList.map fun c => c.text.toList := by
  -- that the cells ascend, and come after the one before them, is in the type of what is read
  obtain ⟨⟨cells, ascending⟩, after⟩ := r
  induction texts generalizing before cells with
  | nil =>
    cases cells with
    | nil => exact iff_of_true rfl rfl
    | cons c rest =>
      refine iff_of_false ?_ (by simp)
      intro h
      cases h
  | cons element rest ih =>
    rw [readElements_cons_eq_ok]
    constructor
    · rintro ⟨c, ⟨⟨tail, htailAscending⟩, hafter⟩, rfl, -, htail, hcells⟩
      cases hcells
      rw [(ih tail htailAscending hafter).mp htail]
      rfl
    · intro h
      cases cells with
      | nil => cases h
      | cons c tail =>
        obtain ⟨rfl, hrest⟩ := List.cons.inj h
        obtain ⟨hc, htailAscending⟩ := List.pairwise_cons.mp ascending
        have hlt : ∀ b ∈ before, b < c := fun b hb => after b hb c List.mem_cons_self
        have hafter : ∀ b ∈ some c, ∀ d ∈ (⟨tail, htailAscending⟩ : CellSet p), b < d := by
          rintro b ⟨⟩ d hd
          exact hc d hd
        exact ⟨c, ⟨⟨tail, htailAscending⟩, hafter⟩, rfl, hlt,
          (ih tail htailAscending hafter).mpr hrest, rfl⟩

theorem readElements_error {texts : List (List Char)} {before : Option (Cell p)}
    (h : readElements p property before texts = .error e) : e.property = property := by
  induction texts generalizing before with
  | nil => cases h
  | cons element rest ih =>
    simp only [readElements] at h
    split at h
    · cases h
      rfl
    · rcases bind_eq_error.mp h with hread | ⟨c, -, h⟩
      · exact readCell_error hread
      · split at h
        · rcases bind_eq_error.mp h with htail | ⟨r, -, h⟩
          · exact ih htail
          · cases h
        · cases h
          rfl

/-- A list is read as the set that is written so. -/
theorem readList_eq_ok {cells : CellSet p} :
    readList p bag property = .ok cells ↔ bag.text property = cells.write := by
  by_cases htext : bag.text property = ""
  · simp only [readList, value?_of_empty htext, htext, Except.ok.injEq]
    rw [eq_comm, eq_comm (a := ""), CellSet.write_eq_empty]
  · simp only [readList, value?_of_ne_empty htext, map_eq_ok]
    constructor
    · rintro ⟨r, hr, rfl⟩
      exact CellSet.write_of_pieces (readElements_eq_ok.mp hr)
    · intro hwrite
      have hcells : cells ≠ ∅ := fun he => htext (hwrite.trans (CellSet.write_eq_empty.mpr he))
      rw [hwrite]
      exact ⟨⟨cells, nofun⟩, readElements_eq_ok.mpr (CellSet.pieces_write hcells), rfl⟩

theorem readList_error (h : readList p bag property = .error e) : e.property = property := by
  simp only [readList] at h
  split at h
  · cases h
  · exact readElements_error (map_eq_error.mp h)

/-- Both ends are read, or neither of them. -/
theorem readEnds?_eq_ok {ends : Option (Ends p)} :
    readEnds? p bag = .ok ends ↔ bag.text .first = (ends.map (·.first.text)).getD "" ∧
      bag.text .latest = (ends.map (·.latest.text)).getD "" := by
  constructor
  · intro h
    obtain ⟨first, hfirst, h⟩ := bind_eq_ok.mp h
    obtain ⟨latest, hlatest, h⟩ := bind_eq_ok.mp h
    rw [readOne?_eq_ok.mp hfirst, readOne?_eq_ok.mp hlatest]
    cases first <;> cases latest <;> cases h <;> exact ⟨rfl, rfl⟩
  · rintro ⟨hfirst, hlatest⟩
    have hfirst : readOne? p bag .first = .ok (ends.map Ends.first) := by
      rw [readOne?_eq_ok, hfirst, Option.map_map]
      rfl
    have hlatest : readOne? p bag .latest = .ok (ends.map Ends.latest) := by
      rw [readOne?_eq_ok, hlatest, Option.map_map]
      rfl
    refine bind_eq_ok.mpr ⟨_, hfirst, bind_eq_ok.mpr ⟨_, hlatest, ?_⟩⟩
    cases ends <;> rfl

theorem readEnds?_error (h : readEnds? p bag = .error e) :
    e.property = .first ∨ e.property = .latest := by
  rcases bind_eq_error.mp h with hfirst | ⟨first, -, h⟩
  · exact Or.inl (readOne?_error hfirst)
  · rcases bind_eq_error.mp h with hlatest | ⟨latest, -, h⟩
    · exact Or.inr (readOne?_error hlatest)
    · cases first <;> cases latest <;> cases h
      · exact Or.inl rfl
      · exact Or.inr rfl

end Bag

section Decode
variable {p : Period} {bag : Bag} {e : Corruption}

theorem Listed.decode_eq_ok {t : Listed p} :
    decode bag = .ok t ↔ bag.text .partitions = t.partitions.write := by
  simp only [decode, map_eq_ok, Bag.readList_eq_ok]
  constructor
  · rintro ⟨cells, hcells, rfl⟩
    exact hcells
  · intro h
    exact ⟨t.partitions, h, rfl⟩

theorem Span.decode_eq_ok {t : Span p} :
    decode bag = .ok t ↔ bag.text .first = (t.ends.map (·.first.text)).getD "" ∧
      bag.text .latest = (t.ends.map (·.latest.text)).getD "" := by
  simp only [decode, map_eq_ok, Bag.readEnds?_eq_ok]
  constructor
  · rintro ⟨ends, hends, rfl⟩
    exact hends
  · intro h
    exact ⟨t.ends, h, rfl⟩

theorem Holed.decode_eq_ok {t : Holed p} :
    decode bag = .ok t ↔ bag.text .first = (t.ends.map (·.first.text)).getD "" ∧
      bag.text .latest = (t.ends.map (·.latest.text)).getD "" ∧
      bag.text .holes = t.holes.write := by
  constructor
  · intro h
    obtain ⟨ends, hends, h⟩ := bind_eq_ok.mp h
    obtain ⟨holes, hholes, h⟩ := bind_eq_ok.mp h
    cases h
    obtain ⟨hfirst, hlatest⟩ := Bag.readEnds?_eq_ok.mp hends
    exact ⟨hfirst, hlatest, Bag.readList_eq_ok.mp hholes⟩
  · rintro ⟨hfirst, hlatest, hholes⟩
    have hends := Bag.readEnds?_eq_ok.mpr ⟨hfirst, hlatest⟩
    exact bind_eq_ok.mpr ⟨_, hends, bind_eq_ok.mpr ⟨_, Bag.readList_eq_ok.mpr hholes, rfl⟩⟩

end Decode

namespace Contents
variable {p : Period} {bag bag' : Bag} {s : Strategy} {t : Contents p} {e : Corruption}

/-- Decoding reads no properties but those of the strategy. -/
theorem decode_congr (h : ∀ property ∈ s.properties, bag.text property = bag'.text property) :
    decode p bag s = decode p bag' s := by
  have hv : ∀ property ∈ s.properties, bag.value? property = bag'.value? property :=
    fun property hp => Bag.value?_congr (h property hp)
  cases s with
  | storeAll =>
    have hp := hv .partitions (by simp [Strategy.properties])
    simp only [decode, Listed.decode, Bag.readList, hp]
  | endsAndHoles =>
    have hf := hv .first (by simp [Strategy.properties])
    have hl := hv .latest (by simp [Strategy.properties])
    have hh := hv .holes (by simp [Strategy.properties])
    simp only [decode, Holed.decode, Bag.readEnds?, Bag.readOne?, Bag.readList, hf, hl, hh]
  | continuous =>
    have hf := hv .first (by simp [Strategy.properties])
    have hl := hv .latest (by simp [Strategy.properties])
    simp only [decode, Span.decode, Bag.readEnds?, Bag.readOne?, hf, hl]

/-- The value of a property that a timeline is stored in. -/
def valueOf : Contents p → Property → Option String
  | listed t, .partitions => some t.partitions.write
  | holed t, .holes => some t.holes.write
  | holed t, .first => t.ends.map fun ends => ends.first.text
  | holed t, .latest => t.ends.map fun ends => ends.latest.text
  | span t, .first => t.ends.map fun ends => ends.first.text
  | span t, .latest => t.ends.map fun ends => ends.latest.text
  | _, _ => none

theorem get?_encode (t : Contents p) (property : Property) :
    t.encode.get? property.name = t.valueOf property := by
  cases t with
  | listed t =>
    cases property <;>
      simp [encode, Listed.encode, valueOf, OrderedMap.ofList, OrderedMap.insertAll,
        OrderedMap.get?_insert, OrderedMap.get?_empty, Property.name]
  | holed t =>
    obtain ⟨ends, holes⟩ := t
    cases ends <;> cases property <;>
      simp [encode, Holed.encode, valueOf, OrderedMap.ofList, OrderedMap.insertAll,
        OrderedMap.get?_insert, OrderedMap.get?_empty, Property.name]
  | span t =>
    obtain ⟨ends⟩ := t
    cases ends <;> cases property <;>
      simp [encode, Span.encode, valueOf, OrderedMap.ofList, OrderedMap.insertAll,
        OrderedMap.get?_insert, OrderedMap.get?_empty, Property.name]

/-- Only properties of its strategy are written for a timeline. -/
theorem owned_of_mem_encode {t : Contents p} {e : String × String} (h : e ∈ t.encode.entries) :
    e.1 ∈ t.strategy.properties.map Property.name := by
  cases t with
  | listed t =>
    have he := OrderedMap.mem_ofList h
    simp only [List.mem_singleton] at he
    simp [strategy, Strategy.properties, he]
  | holed t =>
    obtain ⟨ends, holes⟩ := t
    cases ends with
    | none =>
      have he := OrderedMap.mem_ofList h
      simp only [List.mem_singleton] at he
      simp [strategy, Strategy.properties, he]
    | some ends =>
      have he := OrderedMap.mem_ofList h
      simp only [List.mem_cons, List.not_mem_nil, or_false] at he
      rcases he with rfl | rfl | rfl <;> simp [strategy, Strategy.properties]
  | span t =>
    obtain ⟨ends⟩ := t
    cases ends with
    | none => cases h
    | some ends =>
      have he := OrderedMap.mem_ofList h
      simp only [List.mem_cons, List.not_mem_nil, or_false] at he
      rcases he with rfl | rfl <;> simp [strategy, Strategy.properties]

theorem text_encode (t : Contents p) (property : Property) :
    t.encode.text property = (t.valueOf property).getD "" := by
  rw [Bag.text, get?_encode]

/-- Properties stand for the timeline that has the same texts in the properties of its strategy, and
for none if there is no such timeline. -/
theorem decode_eq_ok :
    decode p bag s = .ok t ↔
      t.strategy = s ∧ ∀ property ∈ s.properties, bag.text property = (t.valueOf property).getD "" := by
  cases s <;> cases t <;>
    simp [decode, strategy, Strategy.properties, valueOf, map_eq_ok, Listed.decode_eq_ok,
      Holed.decode_eq_ok, Span.decode_eq_ok]

/-- A defect is one of a property of the strategy. -/
theorem decode_error (h : decode p bag s = .error e) : e.property ∈ s.properties := by
  cases s with
  | storeAll =>
    have he := Bag.readList_error (map_eq_error.mp (map_eq_error.mp h))
    simp [he, Strategy.properties]
  | endsAndHoles =>
    rcases bind_eq_error.mp (map_eq_error.mp h) with hends | ⟨ends, -, hrest⟩
    · rcases Bag.readEnds?_error hends with he | he <;> simp [he, Strategy.properties]
    · rcases bind_eq_error.mp hrest with hholes | ⟨holes, -, hdone⟩
      · simp [Bag.readList_error hholes, Strategy.properties]
      · cases hdone
  | continuous =>
    rcases Bag.readEnds?_error (map_eq_error.mp (map_eq_error.mp h)) with he | he <;>
      simp [he, Strategy.properties]

end Contents

namespace Timeline

theorem strategy_empty (key : Key) (s : Strategy) : (empty key s).strategy = s := by
  cases s <;> rfl

/-- What a timeline makes of properties depends on its key, its strategy and what the strategy owns. -/
theorem load_congr {t u : Timeline} {bag other : Bag} (hkey : u.key = t.key)
    (hs : u.strategy = t.strategy)
    (h : ∀ property ∈ t.strategy.properties, other.text property = bag.text property) :
    u.load other = t.load bag := by
  obtain ⟨key, contents⟩ := t
  obtain ⟨key', contents'⟩ := u
  cases hkey
  simp only [load, hs, Contents.decode_congr h]
  cases Contents.decode key.period bag (Timeline.mk key contents).strategy <;> rfl

/-- A timeline that takes in its own properties is left as it was. -/
theorem load_encode (t : Timeline) : t.load t.encode = (t, .ok (decide t.Consistent)) := by
  have hdecode : Contents.decode t.key.period t.encode t.strategy = .ok t.contents :=
    Contents.decode_eq_ok.mpr ⟨rfl, fun property _ => t.contents.text_encode property⟩
  simp only [load, hdecode]
  rfl

theorem strategy_load (t : Timeline) (bag : Bag) : (t.load bag).1.strategy = t.strategy := by
  simp only [load]
  split
  · rename_i contents hdecode
    exact (Contents.decode_eq_ok.mp hdecode).1
  · exact strategy_empty _ _

theorem strategy_edit (t : Timeline) (e : Edit) : (t.edit e).1.strategy = t.strategy := by
  cases e with
  | add q => exact (sound_add q).strategy t
  | addAll qs => exact (sound_addAll qs).strategy t
  | addRange r => exact (sound_addRange r).strategy t
  | drop q => exact (sound_drop q).strategy t
  | load bag => exact t.strategy_load bag

theorem key_edits (t : Timeline) (es : List Edit) : (t.edits es).key = t.key := by
  induction es generalizing t with
  | nil => rfl
  | cons e rest ih => exact (ih (t.edit e).1).trans (t.key_edit e)

theorem strategy_edits (t : Timeline) (es : List Edit) : (t.edits es).strategy = t.strategy := by
  induction es generalizing t with
  | nil => rfl
  | cons e rest ih => exact (ih (t.edit e).1).trans (t.strategy_edit e)

/-- Whatever was done to a timeline, what it is then stored as makes it again of any timeline of its
key and strategy, and tells whether it is consistent. -/
theorem load_encode_edits (key : Key) (s : Strategy) (es : List Edit) {u : Timeline}
    (hkey : u.key = key) (hs : u.strategy = s) :
    let t := (empty key s).edits es
    u.load t.encode = (t, .ok (decide t.Consistent)) := by
  intro t
  have hkey : u.key = t.key := hkey.trans (key_edits (empty key s) es).symm
  have hs : u.strategy = t.strategy := by
    rw [hs, strategy_edits, strategy_empty]
  exact (load_congr hkey hs fun _ _ => rfl).trans t.load_encode

/-- Ends in the wrong order were loaded, with a hole outside of them, and a day was added. -/
theorem load_encode_edits_of_reversed_ends :
    let key : Key := ⟨"events", .daily, "dt"⟩
    let reversed : Bag := OrderedMap.ofList
      [("first", "1970-01-08"), ("latest", "1970-01-03"), ("holes", "1970-01-02")]
    let t := (empty key .endsAndHoles).edits
      [.load reversed, .add ⟨.daily, 9, by decide, by decide⟩]
    let u := (empty key .endsAndHoles).edits [.add ⟨.daily, 0, by decide, by decide⟩]
    ¬ t.Consistent ∧ u.load t.encode = (t, .ok false) := by
  intro key reversed t u
  have ht : decide t.Consistent = false := by decide +kernel
  have hload := load_encode_edits key .endsAndHoles
    [.load reversed, .add ⟨.daily, 9, by decide, by decide⟩] (u := u) rfl rfl
  exact ⟨of_decide_eq_false ht, hload.trans (by rw [ht])⟩

end Timeline
end PartitionLedger

import PartitionLedger.Proofs.StoredTimeline

/-!
Which properties a timeline accepts. The form that timelines are stored in is stated of the
properties themselves; what is in that form is accepted and written again as it was, and nothing else
is.
-/
namespace PartitionLedger

/-- Canonical texts of partitions of the period in ascending order, with commas between them. -/
def CanonicalList (p : Period) (value : String) : Prop :=
  ∃ cells : List (Cell p), cells.Pairwise (· < ·) ∧ value = ",".intercalate (cells.map Cell.text)

namespace Text

/-- Joining at a character is joining at the text of that character. -/
theorem join_toList (separator : Char) (texts : List String) :
    String.ofList (join separator (texts.map String.toList)) =
      (String.singleton separator).intercalate texts := by
  apply String.toList_inj.mp
  rw [String.toList_ofList, String.toList_intercalate]
  induction texts with
  | nil => rfl
  | cons t rest ih =>
    cases rest with
    | nil => simp [join]
    | cons u more =>
      simp only [List.map_cons] at ih ⊢
      rw [List.intercalate_cons_cons, ← ih]
      simp [join]

end Text

theorem CellSet.write_eq_intercalate {p : Period} (cells : CellSet p) :
    cells.write = ",".intercalate (cells.toList.map Cell.text) := by
  have hjoin := Text.join_toList ',' (cells.toList.map Cell.text)
  rw [List.map_map] at hjoin
  exact hjoin

theorem canonicalList_iff {p : Period} {value : String} :
    CanonicalList p value ↔ ∃ cells : CellSet p, value = cells.write := by
  constructor
  · rintro ⟨l, ascending, rfl⟩
    exact ⟨⟨l, ascending⟩, (CellSet.write_eq_intercalate ⟨l, ascending⟩).symm⟩
  · rintro ⟨cells, rfl⟩
    exact ⟨cells.toList, cells.ascending, cells.write_eq_intercalate⟩

namespace Bag
variable {p : Period} {bag bag' : Bag} {s : Strategy} {property : Property}

/-- The properties that have a value; an empty one counts as none. -/
def stated (bag : Bag) : Bag := bag.filter fun entry => entry.2 ≠ ""

/-- The properties of a strategy. -/
def owned (bag : Bag) (s : Strategy) : Bag :=
  bag.filter fun entry => entry.1 ∈ s.properties.map Property.name

/-- The form that timelines of a period are stored in: lists are canonical, and either both ends are
partitions or neither is there. -/
structure Canonical (p : Period) (bag : Bag) : Prop where
  lists : ∀ property ∈ [Property.partitions, .holes], ∀ value ∈ bag.get? property.name,
    CanonicalList p value
  ends : bag.get? Property.first.name = none ∧ bag.get? Property.latest.name = none ∨
    ∃ first latest : Cell p, bag.get? Property.first.name = some first.text ∧
      bag.get? Property.latest.name = some latest.text

theorem get?_stated (bag : Bag) (property : Property) :
    bag.stated.get? property.name = bag.value? property := OrderedMap.get?_filter

theorem name_inj {q : Property} : property.name = q.name ↔ property = q := by
  cases property <;> cases q <;> decide

theorem text_owned (bag : Bag) (s : Strategy) (property : Property) :
    (bag.owned s).text property = if property ∈ s.properties then bag.text property else "" := by
  have hmem : property.name ∈ s.properties.map Property.name ↔ property ∈ s.properties := by
    simp [name_inj]
  rw [text, owned, OrderedMap.get?_filter, text]
  by_cases hp : property ∈ s.properties
  · cases bag.get? property.name <;> simp [Option.filter_some, hmem, hp]
  · cases bag.get? property.name <;> simp [Option.filter_some, hmem, hp]

theorem text_stated (bag : Bag) (property : Property) :
    bag.stated.text property = bag.text property := by
  rw [text, get?_stated, getD_value?]

/-- The stated properties of a strategy are determined by their texts. -/
theorem stated_owned_eq_iff : (bag.owned s).stated = (bag'.owned s).stated ↔
    ∀ property ∈ s.properties, bag.text property = bag'.text property := by
  constructor
  · intro h property hp
    have htext := congrArg (text · property) h
    simpa only [text_stated, text_owned, if_pos hp] using htext
  · intro h
    apply OrderedMap.ext_get?
    intro name
    by_cases hname : name ∈ s.properties.map Property.name
    · obtain ⟨property, hp, rfl⟩ := List.mem_map.mp hname
      rw [get?_stated, get?_stated]
      apply value?_congr
      rw [text_owned, text_owned, h property hp]
    · simp only [stated, owned, OrderedMap.get?_filter, hname, decide_false]
      cases bag.get? name <;> cases bag'.get? name <;> rfl

theorem canonicalList_stated_iff :
    (∀ value ∈ bag.stated.get? property.name, CanonicalList p value) ↔
      CanonicalList p (bag.text property) := by
  rw [get?_stated]
  by_cases h : bag.text property = ""
  · rw [value?_of_empty h, h]
    exact iff_of_true (by simp) ⟨[], .nil, rfl⟩
  · rw [value?_of_ne_empty h]
    simp

/-- The properties with a value are canonical if the texts of all are what timelines write. -/
theorem canonical_stated_iff : bag.stated.Canonical p ↔
    (∀ property ∈ [Property.partitions, .holes], CanonicalList p (bag.text property)) ∧
      ∃ ends : Option (Ends p), bag.text .first = (ends.map (·.first.text)).getD "" ∧
        bag.text .latest = (ends.map (·.latest.text)).getD "" := by
  constructor
  · rintro ⟨hlists, hends⟩
    refine ⟨fun property hp => canonicalList_stated_iff.mp (hlists property hp), ?_⟩
    simp only [get?_stated] at hends
    rw [← getD_value?, ← getD_value?]
    rcases hends with ⟨hfirst, hlatest⟩ | ⟨first, latest, hfirst, hlatest⟩
    · rw [hfirst, hlatest]
      exact ⟨none, rfl, rfl⟩
    · rw [hfirst, hlatest]
      exact ⟨some ⟨first, latest⟩, rfl, rfl⟩
  · rintro ⟨hlists, ends, hfirst, hlatest⟩
    refine ⟨fun property hp => canonicalList_stated_iff.mpr (hlists property hp), ?_⟩
    simp only [get?_stated]
    cases ends with
    | none => exact Or.inl ⟨value?_of_empty hfirst, value?_of_empty hlatest⟩
    | some ends =>
      have hf : bag.text .first ≠ "" := hfirst ▸ ends.first.text_ne_empty
      have hl : bag.text .latest ≠ "" := hlatest ▸ ends.latest.text_ne_empty
      rw [value?_of_ne_empty hf, value?_of_ne_empty hl, hfirst, hlatest]
      exact Or.inr ⟨ends.first, ends.latest, rfl, rfl⟩

end Bag

namespace Contents
variable {p : Period} {bag : Bag} {s : Strategy}

theorem owned_encode (t : Contents p) : t.encode.owned t.strategy = t.encode := by
  apply OrderedMap.ext_get?
  intro name
  apply Option.ext
  intro value
  rw [Bag.owned, OrderedMap.get?_filter, Option.filter_eq_some_iff, OrderedMap.get?_eq_some_iff]
  exact and_iff_left_of_imp fun h => decide_eq_true (owned_of_mem_encode h)

/-- What a timeline is stored as is in canonical form. -/
theorem canonical_encode (t : Contents p) : t.encode.stated.Canonical p := by
  have hempty : CanonicalList p "" := ⟨[], .nil, rfl⟩
  have hwrite (cells : CellSet p) : CanonicalList p cells.write :=
    canonicalList_iff.mpr ⟨cells, rfl⟩
  simp only [Bag.canonical_stated_iff, text_encode, List.forall_mem_cons]
  cases t with
  | listed t => exact ⟨⟨hwrite t.partitions, hempty, by simp⟩, none, rfl, rfl⟩
  | holed t => exact ⟨⟨hempty, hwrite t.holes, by simp⟩, t.ends, rfl, rfl⟩
  | span t => exact ⟨⟨hempty, hempty, by simp⟩, t.ends, rfl, rfl⟩

/-- Properties stand for the timeline that is stored as those of its strategy. -/
theorem decode_eq_ok_iff_stated {t : Contents p} : decode p bag s = .ok t ↔
    t.strategy = s ∧ t.encode.stated = (bag.owned s).stated := by
  rw [decode_eq_ok]
  apply and_congr_right
  rintro rfl
  rw [← t.owned_encode, Bag.stated_owned_eq_iff]
  simp only [text_encode, eq_comm]

/-- Whatever is in canonical form stands for a timeline. -/
theorem exists_decode (h : (bag.owned s).stated.Canonical p) : ∃ t, decode p bag s = .ok t := by
  obtain ⟨hlists, ends, hfirst, hlatest⟩ := Bag.canonical_stated_iff.mp h
  obtain ⟨partitions, hpartitions⟩ := canonicalList_iff.mp (hlists .partitions (by simp))
  obtain ⟨holes, hholes⟩ := canonicalList_iff.mp (hlists .holes (by simp))
  have howned {property : Property} (hp : property ∈ s.properties) :
      (bag.owned s).text property = bag.text property := (Bag.text_owned ..).trans (if_pos hp)
  cases s with
  | storeAll =>
    rw [howned (by decide)] at hpartitions
    exact ⟨listed ⟨partitions⟩, map_eq_ok.mpr ⟨_, Listed.decode_eq_ok.mpr hpartitions, rfl⟩⟩
  | endsAndHoles =>
    rw [howned (by decide)] at hfirst hlatest hholes
    have hdecode : Holed.decode bag = .ok ⟨ends, holes⟩ :=
      Holed.decode_eq_ok.mpr ⟨hfirst, hlatest, hholes⟩
    exact ⟨holed ⟨ends, holes⟩, map_eq_ok.mpr ⟨_, hdecode, rfl⟩⟩
  | continuous =>
    rw [howned (by decide)] at hfirst hlatest
    have hdecode : Span.decode bag = .ok ⟨ends⟩ := Span.decode_eq_ok.mpr ⟨hfirst, hlatest⟩
    exact ⟨span ⟨ends⟩, map_eq_ok.mpr ⟨_, hdecode, rfl⟩⟩

end Contents

namespace Timeline

/-- A timeline accepts the properties of its strategy exactly if those that have a value are in the
form that timelines are stored in, and is then stored as them; of any others it names a defect, and is
left empty. What it held before does not matter, nor do properties that its strategy does not own. -/
theorem load_exactly_canonical (t : Timeline) (bag : Bag) :
    let stated := (bag.owned t.strategy).stated
    (stated.Canonical t.key.period → ∃ u : Timeline, t.load bag = (u, .ok (decide u.Consistent)) ∧
        u.key = t.key ∧ u.strategy = t.strategy ∧ u.encode.stated = stated) ∧
      (¬ stated.Canonical t.key.period → ∃ corruption, corruption.property ∈ t.strategy.properties ∧
        t.load bag = (empty t.key t.strategy, .error (.corrupt t.key corruption))) ∧
      ∀ (u : Timeline) (other : Bag), u.key = t.key → u.strategy = t.strategy →
        (other.owned t.strategy).stated = stated → u.load other = t.load bag := by
  intro stated
  refine ⟨?_, ?_, ?_⟩
  · intro hcanonical
    obtain ⟨contents, hdecode⟩ := Contents.exists_decode hcanonical
    obtain ⟨hs, hstated⟩ := Contents.decode_eq_ok_iff_stated.mp hdecode
    refine ⟨{ t with contents }, ?_, rfl, hs, hstated⟩
    simp only [load, hdecode]
    rfl
  · intro hnot
    cases hdecode : Contents.decode t.key.period bag t.strategy with
    | ok contents =>
      obtain ⟨-, hstated⟩ := Contents.decode_eq_ok_iff_stated.mp hdecode
      have hcanonical := contents.canonical_encode
      rw [hstated] at hcanonical
      exact (hnot hcanonical).elim
    | error corruption =>
      refine ⟨corruption, Contents.decode_error hdecode, ?_⟩
      simp only [load, hdecode]
  · intro u other hkey hs hstated
    exact load_congr hkey hs (Bag.stated_owned_eq_iff.mp hstated)

/-- Ends in the wrong order are accepted, beside a property of another strategy; one end alone is
not. -/
theorem load_exactly_canonical_of_ends :
    let key : Key := ⟨"events", .daily, "dt"⟩
    let t := (empty key .endsAndHoles).edits [.add ⟨.daily, 9, by decide, by decide⟩]
    let reversed : Bag := OrderedMap.ofList
      [("first", "1970-01-08"), ("latest", "1970-01-03"), ("partitions", "none")]
    let padded : Bag := OrderedMap.ofList
      [("first", "1970-01-08"), ("holes", ""), ("latest", "1970-01-03")]
    let lone : Bag := OrderedMap.ofList [("first", "1970-01-08"), ("latest", "")]
    (∃ u : Timeline, t.load reversed = (u, .ok (decide u.Consistent)) ∧ u.key = key ∧
        u.strategy = .endsAndHoles ∧ u.encode.stated = (reversed.owned .endsAndHoles).stated) ∧
      (∃ corruption, corruption.property ∈ Strategy.endsAndHoles.properties ∧
        t.load lone = (empty key .endsAndHoles, .error (.corrupt key corruption))) ∧
      (empty key .endsAndHoles).load padded = t.load reversed := by
  intro key t reversed padded lone
  have hreversed : (reversed.owned .endsAndHoles).stated.Canonical .daily := by
    have hlists : ∀ property ∈ [Property.partitions, .holes],
        (reversed.owned .endsAndHoles).text property = "" := by decide +kernel
    rw [Bag.canonical_stated_iff]
    refine ⟨fun property hp => ⟨[], .nil, hlists property hp⟩,
      some ⟨⟨7, by decide, by decide⟩, ⟨2, by decide, by decide⟩⟩, ?_, ?_⟩ <;> decide +kernel
  have hlone : ¬ (lone.owned .endsAndHoles).stated.Canonical .daily := by
    rw [Bag.canonical_stated_iff]
    rintro ⟨-, ends, hfirst, hlatest⟩
    have hf : (lone.owned .endsAndHoles).text .first ≠ "" := by decide +kernel
    have hl : (lone.owned .endsAndHoles).text .latest = "" := by decide +kernel
    cases ends with
    | none => exact hf hfirst
    | some ends => exact ends.latest.text_ne_empty (hlatest.symm.trans hl)
  obtain ⟨haccepted, -, hsame⟩ := load_exactly_canonical t reversed
  obtain ⟨-, hrefused, -⟩ := load_exactly_canonical t lone
  have hstated : (padded.owned .endsAndHoles).stated = (reversed.owned .endsAndHoles).stated := by
    decide +kernel
  exact ⟨haccepted hreversed, hrefused hlone,
    hsame (empty key .endsAndHoles) padded rfl rfl hstated⟩

end Timeline
end PartitionLedger

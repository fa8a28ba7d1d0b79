import Mathlib.Data.List.Perm.Basic
import PartitionLedger.CommandLine.Options
import PartitionLedger.Proofs.Names
import PartitionLedger.Proofs.Outcome

/-!
What a text of overrides stands for: the pairs that its parts name, what is at fault with a text that
is refused, and the strategies that timelines are kept by.
-/
namespace PartitionLedger.Overrides

variable {part text core period strategy : List Char} {pair : Period × Strategy} {e : OverrideError}

theorem not_isBlank_colon : ¬ Text.isBlank ':' := by decide

theorem not_isBlank_comma : ¬ Text.isBlank ',' := by decide

/-- The names of a period and of a strategy stand before and after the first colon. -/
def Names (part : List Char) (pair : Period × Strategy) : Prop :=
  ∃ period strategy, part = period ++ ':' :: strategy ∧ ':' ∉ period ∧
    Text.Named period pair.1.name ∧ Text.Named strategy pair.2.name

/-- Blanks around a part do not count. -/
theorem names_wraps (h : Text.Wraps text core) : Names text pair ↔ Names core pair := by
  constructor
  · rintro ⟨period, strategy, rfl, hnot, hp, hs⟩
    obtain ⟨period', strategy', hcore, hnot', hwp, hws⟩ :=
      Text.append_separator_wraps not_isBlank_colon hnot h
    exact ⟨period', strategy', hcore, hnot', (Period.distinct_names.named_wraps hwp).mp hp,
      (Strategy.distinct_names.named_wraps hws).mp hs⟩
  · rintro ⟨period, strategy, rfl, hnot, hp, hs⟩
    obtain ⟨period', strategy', htext, hnot', hwp, hws⟩ :=
      Text.wraps_append_separator not_isBlank_colon hnot h
    exact ⟨period', strategy', htext, hnot', (Period.distinct_names.named_wraps hwp).mpr hp,
      (Strategy.distinct_names.named_wraps hws).mpr hs⟩

/-- Why a part names no pair. What is reported has the blanks inside of the part, and of a part that
is no pair also those around it. -/
inductive Unreadable (part : List Char) : OverrideError → Prop where
  | notAPair : ':' ∉ part → Unreadable part (.notAPair (String.ofList part))
  | unknownPeriod {period strategy : List Char} :
      Text.Trimmed part (period ++ ':' :: strategy) → ':' ∉ period →
      (∀ p : Period, ¬ Text.Named period p.name) →
      Unreadable part (.unknownPeriod ⟨String.ofList period⟩)
  | unknownStrategy {period strategy : List Char} {p : Period} :
      Text.Trimmed part (period ++ ':' :: strategy) → ':' ∉ period →
      Text.Named period p.name → (∀ s : Strategy, ¬ Text.Named strategy s.name) →
      Unreadable part (.unknownStrategy ⟨String.ofList strategy⟩)

theorem readPair_of_not_mem (h : ':' ∉ part) :
    readPair part = .error (.notAPair (String.ofList part)) := by
  have hmem := Text.mem_of_wraps not_isBlank_colon (Text.trimmed_trim part).1
  rw [readPair, Text.cut?_eq_none.mpr (hmem.not.mp h)]

theorem readPair_of_trimmed (h : Text.Trimmed part (period ++ ':' :: strategy)) (hnot : ':' ∉ period) :
    readPair part = ((Period.read (String.ofList period)).mapError .unknownPeriod).bind fun p =>
      ((Strategy.read (String.ofList strategy)).mapError .unknownStrategy).map fun s => (p, s) := by
  rw [readPair, Text.trim_eq_iff.mpr h, Text.cut?_eq_some.mpr ⟨rfl, hnot⟩]
  rfl

theorem colon_cases (part : List Char) : ':' ∉ part ∨
    ∃ period strategy, Text.Trimmed part (period ++ ':' :: strategy) ∧ ':' ∉ period := by
  have htrim := Text.trimmed_trim part
  cases hcut : Text.cut? ':' (Text.trim part) with
  | none =>
    left
    rw [Text.mem_of_wraps not_isBlank_colon htrim.1]
    exact Text.cut?_eq_none.mp hcut
  | some halves =>
    obtain ⟨hcore, hnot⟩ := Text.cut?_eq_some.mp hcut
    rw [hcore] at htrim
    exact Or.inr ⟨halves.1, halves.2, htrim, hnot⟩

theorem readPair_eq_ok : readPair part = .ok pair ↔ Names part pair := by
  constructor
  · intro h
    rcases colon_cases part with hnone | ⟨period, strategy, htrim, hnot⟩
    · rw [readPair_of_not_mem hnone] at h
      cases h
    · rw [readPair_of_trimmed htrim hnot, bind_eq_ok] at h
      obtain ⟨p, hp, h⟩ := h
      obtain ⟨s, hs, rfl⟩ := map_eq_ok.mp h
      rw [mapError_eq_ok, Period.read_eq_ok, String.toList_ofList] at hp
      rw [mapError_eq_ok, Strategy.read_eq_ok, String.toList_ofList] at hs
      exact (names_wraps htrim.1).mpr ⟨period, strategy, rfl, hnot, hp, hs⟩
  · intro h
    have htrim := Text.trimmed_trim part
    obtain ⟨period, strategy, hcore, hnot, hp, hs⟩ := (names_wraps htrim.1).mp h
    rw [hcore] at htrim
    rw [readPair_of_trimmed htrim hnot, bind_eq_ok]
    rw [← String.toList_ofList (l := period), ← Period.read_eq_ok] at hp
    rw [← String.toList_ofList (l := strategy), ← Strategy.read_eq_ok] at hs
    exact ⟨pair.1, mapError_eq_ok.mpr hp, map_eq_ok.mpr ⟨pair.2, mapError_eq_ok.mpr hs, rfl⟩⟩

theorem readPair_eq_error : readPair part = .error e ↔ Unreadable part e := by
  constructor
  · intro h
    rcases colon_cases part with hnone | ⟨period, strategy, htrim, hnot⟩
    · rw [readPair_of_not_mem hnone] at h
      cases h
      exact .notAPair hnone
    · rw [readPair_of_trimmed htrim hnot, bind_eq_error] at h
      rcases h with h | ⟨p, hp, h⟩
      · obtain ⟨_, he, rfl⟩ := mapError_eq_error.mp h
        obtain ⟨hp, rfl⟩ := Period.read_eq_error.mp he
        rw [String.toList_ofList] at hp
        exact .unknownPeriod htrim hnot hp
      · obtain ⟨_, he, rfl⟩ := mapError_eq_error.mp (map_eq_error.mp h)
        obtain ⟨hs, rfl⟩ := Strategy.read_eq_error.mp he
        rw [mapError_eq_ok, Period.read_eq_ok, String.toList_ofList] at hp
        rw [String.toList_ofList] at hs
        exact .unknownStrategy htrim hnot hp hs
  · intro h
    cases h with
    | notAPair hnone => exact readPair_of_not_mem hnone
    | @unknownPeriod period strategy htrim hnot hp =>
      rw [← String.toList_ofList (l := period)] at hp
      have hread := Period.read_eq_error.mpr ⟨hp, rfl⟩
      rw [readPair_of_trimmed htrim hnot, hread]
      rfl
    | @unknownStrategy period strategy p htrim hnot hp hs =>
      rw [← String.toList_ofList (l := period), ← Period.read_eq_ok] at hp
      rw [← String.toList_ofList (l := strategy)] at hs
      have hread := Strategy.read_eq_error.mpr ⟨hs, rfl⟩
      rw [readPair_of_trimmed htrim hnot, hp, hread]
      rfl

theorem names_unique {pair' : Period × Strategy} (h : Names part pair) (h' : Names part pair') :
    pair = pair' := by
  rw [← readPair_eq_ok] at h h'
  exact Except.ok.inj (h.symm.trans h')

theorem Unreadable.not_names (h : Unreadable part e) : ¬ Names part pair := by
  intro hnames
  rw [← readPair_eq_error] at h
  rw [← readPair_eq_ok, h] at hnames
  cases hnames

/-- No period has two of the pairs, and the overrides are just these. -/
structure Holds (overrides : Overrides) (pairs : List (Period × Strategy)) : Prop where
  distinct : (pairs.map Prod.fst).Nodup
  eq_some_iff : ∀ p s, overrides p = some s ↔ (p, s) ∈ pairs

section Holds
variable {overrides overrides' : Overrides} {pairs pairs' : List (Period × Strategy)}

theorem holds_none : Holds none [] where
  distinct := List.nodup_nil
  eq_some_iff _ _ := iff_of_false nofun List.not_mem_nil

theorem Holds.isSome_iff (h : Holds overrides pairs) (p : Period) :
    (overrides p).isSome ↔ p ∈ pairs.map Prod.fst := by
  simp [Option.isSome_iff_exists, h.eq_some_iff]

/-- A period that has no pair yet gets one. -/
theorem Holds.set (h : Holds overrides pairs) (hnew : pair.1 ∉ pairs.map Prod.fst) :
    Holds (overrides.set pair.1 pair.2) (pairs ++ [pair]) where
  distinct := by
    rw [List.map_append, List.nodup_append]
    refine ⟨h.distinct, List.pairwise_singleton _ _, ?_⟩
    rintro p hp q hq rfl
    exact hnew (List.mem_singleton.mp hq ▸ hp)
  eq_some_iff p s := by
    simp only [Overrides.set, List.mem_append, List.mem_singleton]
    split
    · rename_i hp
      subst hp
      constructor
      · intro hs
        exact Or.inr (Prod.ext rfl (Option.some.inj hs).symm)
      · rintro (hs | hs)
        · exact absurd (List.mem_map_of_mem hs) hnew
        · exact congrArg (fun pair => some pair.2) hs.symm
    · rename_i hp
      rw [h.eq_some_iff, or_iff_left]
      exact fun hs => hp (congrArg Prod.fst hs)

theorem Holds.perm (h : Holds overrides pairs) (hperm : pairs.Perm pairs') : Holds overrides pairs' where
  distinct := (hperm.map Prod.fst).nodup_iff.mp h.distinct
  eq_some_iff p s := (h.eq_some_iff p s).trans hperm.mem_iff

theorem Holds.unique (h : Holds overrides pairs) (h' : Holds overrides' pairs) :
    overrides = overrides' := by
  funext p
  apply Option.ext
  intro s
  rw [h.eq_some_iff, h'.eq_some_iff]

end Holds

/-- Why the parts are refused at this one, where the parts before it name pairs of the periods
`earlier`. -/
def Fault (earlier : List Period) (part : List Char) (e : OverrideError) : Prop :=
  Unreadable part e ∨ ∃ pair, Names part pair ∧ pair.1 ∈ earlier ∧ e = .repeated pair.1

section Fault
variable {earlier : List Period}

/-- A part that is at fault can name a pair only where its period has one already. -/
theorem Fault.mem_of_names (h : Fault earlier part e) (hnames : Names part pair) :
    pair.1 ∈ earlier := by
  rcases h with h | ⟨pair', hnames', hmem, -⟩
  · exact absurd hnames h.not_names
  · rwa [names_unique hnames hnames']

theorem Fault.unique {e' : OverrideError} (h : Fault earlier part e) (h' : Fault earlier part e') :
    e = e' := by
  rcases h with h | ⟨pair, hnames, -, rfl⟩
  · rcases h' with h' | ⟨pair', hnames', -⟩
    · rw [← readPair_eq_error] at h h'
      exact Except.error.inj (h.symm.trans h')
    · exact absurd hnames' h.not_names
  · rcases h' with h' | ⟨pair', hnames', -, rfl⟩
    · exact absurd hnames h'.not_names
    · rw [names_unique hnames hnames']

end Fault

theorem not_mem_earlier {earlier pairs : List (Period × Strategy)}
    (h : ((earlier ++ pair :: pairs).map Prod.fst).Nodup) : pair.1 ∉ earlier.map Prod.fst := by
  rw [List.map_append, List.nodup_append] at h
  intro hmem
  exact h.2.2 _ hmem pair.1 (by simp) rfl

section readPairs
variable {overrides result : Overrides} {earlier : List (Period × Strategy)}
  {parts : List (List Char)} (h : Holds overrides earlier)
include h

/-- The first part is at fault, or the other parts are read after its pair. -/
theorem readPairs_cons (part : List Char) (rest : List (List Char)) :
    (∃ e, Fault (earlier.map Prod.fst) part e ∧ readPairs overrides (part :: rest) = .error e) ∨
    ∃ pair, Names part pair ∧ Holds (overrides.set pair.1 pair.2) (earlier ++ [pair]) ∧
      readPairs overrides (part :: rest) = readPairs (overrides.set pair.1 pair.2) rest := by
  cases hread : readPair part with
  | error e =>
    refine Or.inl ⟨e, Or.inl (readPair_eq_error.mp hread), ?_⟩
    rw [readPairs, hread]
    rfl
  | ok pair =>
    have hnames := readPair_eq_ok.mp hread
    by_cases hsome : (overrides pair.1).isSome
    · refine Or.inl ⟨.repeated pair.1, Or.inr ⟨pair, hnames, (h.isSome_iff _).mp hsome, rfl⟩, ?_⟩
      rw [readPairs, hread, ok_bind]
      exact if_pos hsome
    · refine Or.inr ⟨pair, hnames, h.set (mt (h.isSome_iff _).mpr hsome), ?_⟩
      rw [readPairs, hread, ok_bind]
      exact if_neg hsome

theorem readPairs_eq_ok : readPairs overrides parts = .ok result ↔
    ∃ pairs, List.Forall₂ Names parts pairs ∧ Holds result (earlier ++ pairs) := by
  induction parts generalizing overrides earlier with
  | nil =>
    constructor
    · intro hread
      cases hread
      exact ⟨[], .nil, by rwa [List.append_nil]⟩
    · rintro ⟨pairs, hnames, hholds⟩
      cases hnames
      rw [List.append_nil] at hholds
      exact congrArg Except.ok (h.unique hholds)
  | cons part rest ih =>
    rcases readPairs_cons h part rest with ⟨e, hfault, hread⟩ | ⟨pair, hnames, hset, hread⟩
    · rw [hread]
      refine iff_of_false nofun ?_
      rintro ⟨pairs, hall, hholds⟩
      obtain ⟨pair, more, hnames, -, rfl⟩ := List.forall₂_cons_left_iff.mp hall
      exact not_mem_earlier hholds.distinct (hfault.mem_of_names hnames)
    · rw [hread, ih hset]
      simp only [List.append_assoc, List.singleton_append]
      constructor
      · rintro ⟨more, hmore, hholds⟩
        exact ⟨pair :: more, .cons hnames hmore, hholds⟩
      · rintro ⟨pairs, hall, hholds⟩
        obtain ⟨pair', more, hnames', hmore, rfl⟩ := List.forall₂_cons_left_iff.mp hall
        rw [names_unique hnames' hnames] at hholds
        exact ⟨more, hmore, hholds⟩

/-- The error is that of the first part that is at fault. -/
theorem readPairs_eq_error : readPairs overrides parts = .error e ↔
    ∃ before part after pairs, parts = before ++ part :: after ∧ List.Forall₂ Names before pairs ∧
      ((earlier ++ pairs).map Prod.fst).Nodup ∧ Fault ((earlier ++ pairs).map Prod.fst) part e := by
  induction parts generalizing overrides earlier with
  | nil =>
    refine iff_of_false nofun ?_
    rintro ⟨before, part, after, pairs, hparts, -⟩
    simp at hparts
  | cons part rest ih =>
    rcases readPairs_cons h part rest with ⟨e', hfault, hread⟩ | ⟨pair, hnames, hset, hread⟩
    · rw [hread, Except.error.injEq]
      constructor
      · rintro rfl
        refine ⟨[], part, rest, [], rfl, .nil, ?_, ?_⟩
        · rw [List.append_nil]
          exact h.distinct
        · rwa [List.append_nil]
      · rintro ⟨before, _, after, pairs, hparts, hall, hdistinct, hother⟩
        cases hall with
        | nil =>
          cases hparts
          rw [List.append_nil] at hother
          exact hfault.unique hother
        | cons hnames hmore =>
          cases hparts
          exact absurd (hfault.mem_of_names hnames) (not_mem_earlier hdistinct)
    · rw [hread, ih hset]
      simp only [List.append_assoc, List.singleton_append]
      constructor
      · rintro ⟨before, part', after, more, rfl, hmore, hdistinct, hfault⟩
        exact ⟨part :: before, part', after, pair :: more, rfl, .cons hnames hmore, hdistinct, hfault⟩
      · rintro ⟨before, part', after, pairs, hparts, hall, hdistinct, hfault⟩
        cases hall with
        | nil =>
          cases hparts
          rw [List.append_nil] at hfault
          exact absurd (hfault.mem_of_names hnames) (not_mem_earlier hset.distinct)
        | @cons part'' pair' before pairs hnames' hmore =>
          cases hparts
          rw [names_unique hnames' hnames] at hdistinct hfault
          exact ⟨before, part', after, pairs, rfl, hmore, hdistinct, hfault⟩

end readPairs

/-- The text is made of the parts, with commas between them. -/
def Parts (text : List Char) (parts : List (List Char)) : Prop :=
  parts ≠ [] ∧ (∀ part ∈ parts, ',' ∉ part) ∧ Text.join ',' parts = text

/-- What the text stands for: nothing if it is blank, and otherwise the pairs that its parts name. -/
def Lists (given : String) (pairs : List (Period × Strategy)) : Prop :=
  Text.AllBlank given.toList ∧ pairs = [] ∨
    ∃ core parts, Text.Trimmed given.toList core ∧ Parts core parts ∧ List.Forall₂ Names parts pairs

section read
variable {given given' : String} {core core' : List Char} {overrides : Overrides}
  {parts parts' : List (List Char)} {pairs pairs' : List (Period × Strategy)}

theorem parts_iff : Parts text parts ↔ Text.pieces ',' text = parts := Text.pieces_eq_iff.symm

theorem names_all_wraps (h : Text.Wraps text core) :
    List.Forall₂ Names (Text.pieces ',' text) pairs ↔
      List.Forall₂ Names (Text.pieces ',' core) pairs := by
  have hwraps := Text.pieces_wraps not_isBlank_comma h
  generalize Text.pieces ',' text = parts at hwraps ⊢
  generalize Text.pieces ',' core = parts' at hwraps ⊢
  induction hwraps generalizing pairs with
  | nil => rfl
  | cons hfirst _ ih =>
    cases pairs with
    | nil => exact iff_of_false nofun nofun
    | cons pair more =>
      rw [List.forall₂_cons, List.forall₂_cons]
      exact and_congr (names_wraps hfirst) ih

theorem allBlank_wraps (h : Text.Wraps text core) : Text.AllBlank text ↔ Text.AllBlank core := by
  rw [← Text.trim_eq_nil_iff, ← Text.trim_eq_nil_iff, Text.trim_wraps h]

/-- It does not matter how many of the blanks around a text are left off before it is cut. -/
theorem lists_iff (hwraps : Text.Wraps given.toList core) (hparts : Parts core parts) :
    Lists given pairs ↔
      Text.AllBlank given.toList ∧ pairs = [] ∨ List.Forall₂ Names parts pairs := by
  rw [parts_iff] at hparts
  subst hparts
  rw [← names_all_wraps hwraps]
  apply or_congr_right
  constructor
  · rintro ⟨core', parts', htrim, hparts', hnames⟩
    rw [parts_iff] at hparts'
    subst hparts'
    exact (names_all_wraps htrim.1).mpr hnames
  · intro hnames
    have htrim := Text.trimmed_trim given.toList
    exact ⟨_, _, htrim, parts_iff.mpr rfl, (names_all_wraps htrim.1).mp hnames⟩

theorem names_not_allBlank (h : Names part pair) : ¬ Text.AllBlank part := by
  obtain ⟨period, strategy, rfl, -⟩ := h
  intro hblank
  exact not_isBlank_colon (hblank ':' (by simp))

/-- A blank text stands for nothing. -/
theorem lists_of_allBlank (h : Text.AllBlank given.toList) : Lists given pairs ↔ pairs = [] := by
  have hcomma : ',' ∉ given.toList := fun hm => not_isBlank_comma (h ',' hm)
  have hparts := parts_iff.mpr (Text.pieces_of_not_mem hcomma)
  rw [lists_iff (Text.Wraps.refl _) hparts]
  constructor
  · rintro (⟨-, hnil⟩ | hnames)
    · exact hnil
    · obtain ⟨pair, more, hfirst, -, -⟩ := List.forall₂_cons_left_iff.mp hnames
      exact absurd h (names_not_allBlank hfirst)
  · exact fun hnil => Or.inl ⟨h, hnil⟩

theorem read_of_allBlank (h : Text.AllBlank given.toList) : read given = .ok none :=
  if_pos (Text.trim_eq_nil_iff.mpr h)

theorem read_of_parts (hnot : ¬ Text.AllBlank given.toList) (htrim : Text.Trimmed given.toList core)
    (hparts : Parts core parts) : read given = readPairs none parts := by
  rw [← Text.trim_eq_nil_iff] at hnot
  rw [← parts_iff.mp hparts, ← Text.trim_eq_iff.mpr htrim]
  exact if_neg hnot

theorem read_eq_ok :
    read given = .ok overrides ↔ ∃ pairs, Lists given pairs ∧ Holds overrides pairs := by
  by_cases hblank : Text.AllBlank given.toList
  · simp only [read_of_allBlank hblank, lists_of_allBlank hblank, exists_eq_left, Except.ok.injEq]
    constructor
    · rintro rfl
      exact holds_none
    · exact holds_none.unique
  · have htrim := Text.trimmed_trim given.toList
    have hparts := parts_iff.mpr (rfl : Text.pieces ',' (Text.trim given.toList) = _)
    simp only [read_of_parts hblank htrim hparts, readPairs_eq_ok holds_none, List.nil_append,
      lists_iff htrim.1 hparts, hblank, false_and, false_or]

theorem read_eq_error : read given = .error e ↔ ¬ Text.AllBlank given.toList ∧
    ∃ core before part after pairs, Text.Trimmed given.toList core ∧
      Parts core (before ++ part :: after) ∧ List.Forall₂ Names before pairs ∧
      (pairs.map Prod.fst).Nodup ∧ Fault (pairs.map Prod.fst) part e := by
  by_cases hblank : Text.AllBlank given.toList
  · rw [read_of_allBlank hblank]
    exact iff_of_false nofun fun h => h.1 hblank
  · constructor
    · intro h
      have htrim := Text.trimmed_trim given.toList
      have hparts := parts_iff.mpr (rfl : Text.pieces ',' (Text.trim given.toList) = _)
      rw [read_of_parts hblank htrim hparts, readPairs_eq_error holds_none] at h
      obtain ⟨before, part, after, pairs, hsplit, hrest⟩ := h
      exact ⟨hblank, _, before, part, after, pairs, htrim, hsplit ▸ hparts, hrest⟩
    · rintro ⟨-, core, before, part, after, pairs, htrim, hparts, hrest⟩
      rw [read_of_parts hblank htrim hparts, readPairs_eq_error holds_none]
      exact ⟨before, part, after, pairs, rfl, hrest⟩

theorem lists_unique (h : Lists given pairs) (h' : Lists given pairs') : pairs = pairs' := by
  by_cases hblank : Text.AllBlank given.toList
  · rw [lists_of_allBlank hblank] at h h'
    rw [h, h']
  · have hparts := parts_iff.mpr (rfl : Text.pieces ',' given.toList = _)
    rw [lists_iff (Text.Wraps.refl _) hparts, or_iff_right fun hb => hblank hb.1] at h h'
    have hunique : Relator.RightUnique Names := fun _ _ _ => names_unique
    exact List.right_unique_forall₂' hunique h h'

/-- The parts in another order stand for the same pairs in another order. -/
theorem lists_perm (hwraps : Text.Wraps given.toList core) (hparts : Parts core parts)
    (hwraps' : Text.Wraps given'.toList core') (hparts' : Parts core' parts')
    (hperm : parts.Perm parts') (h : Lists given pairs) :
    ∃ pairs', Lists given' pairs' ∧ pairs.Perm pairs' := by
  rcases (lists_iff hwraps hparts).mp h with ⟨hblank, rfl⟩ | hnames
  · -- a blank text is its only part
    have hcore := (allBlank_wraps hwraps).mp hblank
    have hcomma : ',' ∉ core := fun hm => not_isBlank_comma (hcore ',' hm)
    rw [parts_iff, Text.pieces_of_not_mem hcomma] at hparts
    subst hparts
    obtain rfl := List.singleton_perm.mp hperm
    obtain rfl : core = core' := hparts'.2.2
    exact ⟨[], Or.inl ⟨(allBlank_wraps hwraps').mpr hcore, rfl⟩, .refl []⟩
  · obtain ⟨pairs', hnames', hperm'⟩ := List.perm_comp_forall₂ hperm.symm hnames
    exact ⟨pairs', (lists_iff hwraps' hparts').mpr (Or.inr hnames'), hperm'.symm⟩

/-- The strategy that is paired with a period counts before that of tables without pause, and this
before the default. -/
theorem strategyFor_of_holds (h : Holds overrides pairs) (default : Strategy) (p : Period) :
    (∀ s, (p, s) ∈ pairs → (Options.mk default overrides).config.strategyFor p = s) ∧
    (p ∉ pairs.map Prod.fst → (Options.mk default overrides).config.strategyFor p =
      if p = .continuous then .continuous else default) := by
  constructor
  · intro s hs
    have hsome := (h.eq_some_iff p s).mpr hs
    simp [Options.config, Config.ofOverrides, Config.strategyFor, hsome]
  · intro hnot
    have hnone : overrides p = Option.none :=
      Option.not_isSome_iff_eq_none.mp (mt (h.isSome_iff p).mp hnot)
    simp only [Options.config, Config.ofOverrides, Config.strategyFor, hnone]
    split <;> rfl

end read

/-- A text of overrides is read exactly if its parts name pairs of different periods, as those pairs,
and otherwise it is refused for the first part that is at fault. Timelines are kept by the strategies
that are paired with their periods, and by the usual ones where there is none; the order of the parts
does not matter. -/
theorem overrides_read_exactly (given : String) :
    (∀ overrides, read given = .ok overrides ↔
      ∃ pairs, Lists given pairs ∧ Holds overrides pairs) ∧
    (∀ e, read given = .error e ↔ ¬ Text.AllBlank given.toList ∧
      ∃ core before part after pairs, Text.Trimmed given.toList core ∧
        Parts core (before ++ part :: after) ∧ List.Forall₂ Names before pairs ∧
        (pairs.map Prod.fst).Nodup ∧ Fault (pairs.map Prod.fst) part e) ∧
    ∀ overrides, read given = .ok overrides →
      (∀ pairs, Lists given pairs → ∀ default p,
        (∀ s, (p, s) ∈ pairs → (Options.mk default overrides).config.strategyFor p = s) ∧
        (p ∉ pairs.map Prod.fst → (Options.mk default overrides).config.strategyFor p =
          if p = .continuous then .continuous else default)) ∧
      ∀ (given' : String) core core' parts parts', Text.Wraps given.toList core → Parts core parts →
        Text.Wraps given'.toList core' → Parts core' parts' → parts.Perm parts' →
          read given' = .ok overrides := by
  refine ⟨fun overrides => read_eq_ok, fun e => read_eq_error, fun overrides hread => ?_⟩
  obtain ⟨pairs, hlists, hholds⟩ := read_eq_ok.mp hread
  constructor
  · intro pairs' hlists' default p
    rw [lists_unique hlists' hlists]
    exact strategyFor_of_holds hholds default p
  · intro given' core core' parts parts' hwraps hparts hwraps' hparts' hperm
    obtain ⟨pairs', hlists', hperm'⟩ := lists_perm hwraps hparts hwraps' hparts' hperm hlists
    exact read_eq_ok.mpr ⟨pairs', hlists', hholds.perm hperm'⟩

/-- Two overrides, one of them for tables without pause, in either order. -/
theorem overrides_read_exactly_of_two :
    ∃ overrides, read "daily: store_all , Continuous:ENDS_AND_HOLES " = .ok overrides ∧
      read " Continuous:ENDS_AND_HOLES ,daily: store_all " = .ok overrides ∧
      let config := (Options.mk .continuous overrides).config
      config.strategyFor .daily = .storeAll ∧ config.strategyFor .continuous = .endsAndHoles ∧
        config.strategyFor .hourly = .continuous := by
  let overrides := (none.set .daily .storeAll).set .continuous .endsAndHoles
  have hread : read "daily: store_all , Continuous:ENDS_AND_HOLES " = .ok overrides := rfl
  obtain ⟨hok, -, hthen⟩ := overrides_read_exactly "daily: store_all , Continuous:ENDS_AND_HOLES "
  obtain ⟨hstrategy, horder⟩ := hthen overrides hread
  obtain ⟨pairs, hlists, hholds⟩ := (hok overrides).mp hread
  have hdaily := (hholds.eq_some_iff .daily .storeAll).mp rfl
  have hcontinuous := (hholds.eq_some_iff .continuous .endsAndHoles).mp rfl
  have hhourly := mt (hholds.isSome_iff .hourly).mpr (by decide)
  have hparts : Parts "daily: store_all , Continuous:ENDS_AND_HOLES ".toList
      ["daily: store_all ".toList, " Continuous:ENDS_AND_HOLES ".toList] :=
    ⟨by decide, by decide, by decide⟩
  have hparts' : Parts " Continuous:ENDS_AND_HOLES ,daily: store_all ".toList
      [" Continuous:ENDS_AND_HOLES ".toList, "daily: store_all ".toList] :=
    ⟨by decide, by decide, by decide⟩
  exact ⟨overrides, hread,
    horder _ _ _ _ _ (.refl _) hparts (.refl _) hparts' (.swap _ _ _),
    (hstrategy pairs hlists _ _).1 _ hdaily, (hstrategy pairs hlists _ _).1 _ hcontinuous,
    (hstrategy pairs hlists _ _).2 hhourly⟩

end PartitionLedger.Overrides

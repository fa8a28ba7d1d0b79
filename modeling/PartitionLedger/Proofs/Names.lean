import Mathlib.Data.List.Forall2
import Mathlib.Data.List.TakeWhile
import PartitionLedger.Proofs.Text
import PartitionLedger.Registry.Config

/-!
Texts up to the blanks around them: what trimming leaves, how the pieces of a text change with it, and
which texts are read as a name.
-/
namespace PartitionLedger

namespace Text

variable {separator : Char} {text core before after rest : List Char}

def AllBlank (text : List Char) : Prop := ∀ c ∈ text, isBlank c

theorem AllBlank.append (h : AllBlank before) (h' : AllBlank after) : AllBlank (before ++ after) := by
  intro c hc
  rcases List.mem_append.mp hc with hc | hc
  · exact h c hc
  · exact h' c hc

theorem AllBlank.reverse (h : AllBlank text) : AllBlank text.reverse :=
  fun c hc => h c (List.mem_reverse.mp hc)

/-- The text is `core` with blanks around it. -/
def Wraps (text core : List Char) : Prop :=
  ∃ before after, text = before ++ (core ++ after) ∧ AllBlank before ∧ AllBlank after

/-- The text neither starts nor ends with a blank. -/
def Tight (text : List Char) : Prop :=
  (∀ c ∈ text.head?, ¬ isBlank c) ∧ ∀ c ∈ text.getLast?, ¬ isBlank c

theorem Wraps.refl (text : List Char) : Wraps text text := ⟨[], [], by simp, nofun, nofun⟩

theorem Wraps.trans {inner : List Char} (h : Wraps text core) (h' : Wraps core inner) :
    Wraps text inner := by
  obtain ⟨before, after, rfl, hbefore, hafter⟩ := h
  obtain ⟨before', after', rfl, hbefore', hafter'⟩ := h'
  exact ⟨before ++ before', after' ++ after, by simp, hbefore.append hbefore', hafter'.append hafter⟩

/-- Dropping the blanks from the front stops at what does not start with one. -/
theorem dropWhile_blanks (hbefore : AllBlank before) (hrest : ∀ c ∈ rest.head?, ¬ isBlank c) :
    (before ++ rest).dropWhile isBlank = rest := by
  rw [List.dropWhile_append_of_pos hbefore]
  cases rest with
  | nil => rfl
  | cons c rest => exact List.dropWhile_cons_of_neg (hrest c rfl)

theorem exists_dropWhile (text : List Char) : ∃ before, AllBlank before ∧
    text = before ++ text.dropWhile isBlank ∧ ∀ c ∈ (text.dropWhile isBlank).head?, ¬ isBlank c := by
  refine ⟨text.takeWhile isBlank, ?_, List.takeWhile_append_dropWhile.symm, ?_⟩
  · intro c hc
    exact List.mem_takeWhile_imp hc
  · intro c hc hblank
    have hnot := List.head?_dropWhile_not isBlank text
    rw [hc] at hnot
    simp [hblank] at hnot

/-- All the blanks around the text are left off. -/
def Trimmed (text core : List Char) : Prop := Wraps text core ∧ Tight core

theorem trim_eq_of_trimmed (h : Trimmed text core) : trim text = core := by
  obtain ⟨⟨before, after, rfl, hbefore, hafter⟩, hfirst, hlast⟩ := h
  cases core with
  | nil =>
    have hall : (before ++ after ++ []).dropWhile isBlank = [] :=
      dropWhile_blanks (hbefore.append hafter) nofun
    rw [List.append_nil] at hall
    rw [trim, List.nil_append, hall]
    rfl
  | cons c rest =>
    have hfirst' : ∀ d ∈ (c :: rest ++ after).head?, ¬ isBlank d := hfirst
    have hlast' : ∀ d ∈ (c :: rest).reverse.head?, ¬ isBlank d := by rwa [List.head?_reverse]
    rw [trim, dropWhile_blanks hbefore hfirst', List.reverse_append,
      dropWhile_blanks hafter.reverse hlast', List.reverse_reverse]

theorem trimmed_trim (text : List Char) : Trimmed text (trim text) := by
  obtain ⟨before, hbefore, htext, hfirst⟩ := exists_dropWhile text
  obtain ⟨after, hafter, hrest, hlast⟩ := exists_dropWhile (text.dropWhile isBlank).reverse
  have hmid : text.dropWhile isBlank = trim text ++ after.reverse := by
    rw [← List.reverse_inj, hrest, trim]
    simp
  refine ⟨⟨before, after.reverse, ?_, hbefore, hafter.reverse⟩, ?_, ?_⟩
  · rw [← hmid]
    exact htext
  · intro c hc
    -- what is left is empty, or starts as it did before its end was cut
    apply hfirst c
    rw [hmid, List.head?_append, hc]
    rfl
  · intro c hc
    rw [trim, List.getLast?_reverse] at hc
    exact hlast c hc

theorem trim_eq_iff : trim text = core ↔ Trimmed text core :=
  ⟨fun h => h ▸ trimmed_trim text, trim_eq_of_trimmed⟩

theorem trim_wraps (h : Wraps text core) : trim text = trim core := by
  obtain ⟨hcore, htight⟩ := trimmed_trim core
  exact trim_eq_of_trimmed ⟨h.trans hcore, htight⟩

theorem trim_eq_nil_iff : trim text = [] ↔ AllBlank text := by
  rw [trim_eq_iff]
  constructor
  · rintro ⟨⟨before, after, rfl, hbefore, hafter⟩, -⟩
    exact hbefore.append hafter
  · intro h
    exact ⟨⟨text, [], by simp, h, nofun⟩, nofun, nofun⟩

theorem cut?_eq_some : cut? separator text = some (before, after) ↔
    text = before ++ separator :: after ∧ separator ∉ before := by
  have hsplit : text = text.takeWhile (· != separator) ++ text.dropWhile (· != separator) :=
    List.takeWhile_append_dropWhile.symm
  constructor
  · intro h
    simp only [cut?] at h
    split at h
    · cases h
    · rename_i c rest hdrop
      obtain ⟨rfl, rfl⟩ := Prod.mk.inj (Option.some.inj h)
      have hnot := List.head?_dropWhile_not (· != separator) text
      simp only [hdrop, List.head?_cons, bne_eq_false_iff_eq] at hnot
      subst hnot
      refine ⟨hdrop ▸ hsplit, fun hmem => ?_⟩
      simpa using List.mem_takeWhile_imp hmem
  · rintro ⟨rfl, hnot⟩
    have hkeep : ∀ c ∈ before, c != separator := by
      intro c hc
      rw [bne_iff_ne]
      rintro rfl
      exact hnot hc
    simp [cut?, List.dropWhile_append_of_pos hkeep, List.takeWhile_append_of_pos hkeep]

theorem cut?_eq_none : cut? separator text = none ↔ separator ∉ text := by
  have hdrop : cut? separator text = none ↔ text.dropWhile (· != separator) = [] := by
    rw [cut?]
    split
    · rename_i hnil
      simp [hnil]
    · rename_i hcons
      simp [hcons]
  rw [hdrop, List.dropWhile_eq_nil_iff]
  constructor
  · intro h hmem
    simpa using h separator hmem
  · intro hnot c hc
    rw [bne_iff_ne]
    rintro rfl
    exact hnot hc

/-- Blanks around a text stand around what is before and after its first separator. -/
theorem wraps_append_separator (hsep : ¬ isBlank separator) (hnot : separator ∉ before)
    (h : Wraps text (before ++ separator :: after)) : ∃ before' after',
      text = before' ++ separator :: after' ∧ separator ∉ before' ∧ Wraps before' before ∧
        Wraps after' after := by
  obtain ⟨front, back, rfl, hfront, hback⟩ := h
  refine ⟨front ++ before, after ++ back, by simp, ?_, ?_, ?_⟩
  · intro hm
    rcases List.mem_append.mp hm with hm | hm
    · exact hsep (hfront separator hm)
    · exact hnot hm
  · exact ⟨front, [], by simp, hfront, nofun⟩
  · exact ⟨[], back, rfl, nofun, hback⟩

theorem mem_of_wraps (hsep : ¬ isBlank separator) (h : Wraps text core) :
    separator ∈ text ↔ separator ∈ core := by
  obtain ⟨before, after, rfl, hbefore, hafter⟩ := h
  have hnot : separator ∉ before := fun hm => hsep (hbefore separator hm)
  have hnot' : separator ∉ after := fun hm => hsep (hafter separator hm)
  simp [hnot, hnot']

/-- What is before and after the first separator has the blanks around it that the text has. -/
theorem append_separator_wraps (hsep : ¬ isBlank separator) (hnot : separator ∉ before)
    (h : Wraps (before ++ separator :: after) core) : ∃ before' after',
      core = before' ++ separator :: after' ∧ separator ∉ before' ∧ Wraps before before' ∧
        Wraps after after' := by
  have hmem : separator ∈ core := (mem_of_wraps hsep h).mp (by simp)
  obtain ⟨before', after', rfl, hnot'⟩ := List.eq_append_cons_of_mem hmem
  obtain ⟨_, _, htext, hnone, hb, ha⟩ := wraps_append_separator hsep hnot' h
  obtain ⟨rfl, rfl⟩ := append_separator_inj hnot hnone htext
  exact ⟨before', after', rfl, hnot', hb, ha⟩

theorem not_mem_pieces : ∀ t ∈ pieces separator text, separator ∉ t := by
  induction text with
  | nil => simp [pieces]
  | cons c rest ih =>
    by_cases hc : c = separator
    · simp only [pieces, if_pos hc, List.forall_mem_cons]
      exact ⟨List.not_mem_nil, ih⟩
    · obtain ⟨piece, more, hp⟩ := List.exists_cons_of_ne_nil (pieces_ne_nil separator rest)
      rw [hp, List.forall_mem_cons] at ih
      simp only [pieces, if_neg hc, hp]
      refine List.forall_mem_cons.mpr ⟨?_, ih.2⟩
      simp [Ne.symm hc, ih.1]

/-- The pieces of a text are what it is joined from without a separator in any of them. -/
theorem pieces_eq_iff {texts : List (List Char)} : pieces separator text = texts ↔
    texts ≠ [] ∧ (∀ t ∈ texts, separator ∉ t) ∧ join separator texts = text := by
  constructor
  · rintro rfl
    exact ⟨pieces_ne_nil separator text, not_mem_pieces, join_pieces separator text⟩
  · rintro ⟨hne, hnot, rfl⟩
    exact pieces_join hne hnot

/-- Nothing but the first piece changes with what is put in front. -/
theorem pieces_prepend {piece : List Char} {more : List (List Char)} (hnot : separator ∉ before)
    (hp : pieces separator text = piece :: more) :
    pieces separator (before ++ text) = (before ++ piece) :: more := by
  induction before with
  | nil => exact hp
  | cons c rest ih =>
    have hc : c ≠ separator := fun he => hnot (by simp [he])
    have hrest := ih fun hm => hnot (List.mem_cons_of_mem c hm)
    simp only [List.cons_append, pieces, if_neg hc, hrest]

/-- Nothing but the last piece changes with what is put behind. -/
theorem pieces_append_forall₂ (text : List Char) (hnot : separator ∉ after) :
    List.Forall₂ (fun t u => t = u ∨ t = u ++ after) (pieces separator (text ++ after))
      (pieces separator text) := by
  induction text with
  | nil =>
    rw [List.nil_append, pieces_of_not_mem hnot]
    exact .cons (Or.inr rfl) .nil
  | cons c rest ih =>
    by_cases hc : c = separator
    · simp only [List.cons_append, pieces, if_pos hc]
      exact .cons (Or.inl rfl) ih
    · obtain ⟨t, ts, ht⟩ := List.exists_cons_of_ne_nil (pieces_ne_nil separator (rest ++ after))
      obtain ⟨u, us, hu⟩ := List.exists_cons_of_ne_nil (pieces_ne_nil separator rest)
      rw [ht, hu] at ih
      obtain ⟨hfirst, hmore⟩ := List.forall₂_cons.mp ih
      simp only [List.cons_append, pieces, if_neg hc, ht, hu]
      exact .cons (hfirst.imp (congrArg (c :: ·)) (congrArg (c :: ·))) hmore

/-- The pieces of a text have blanks around them where the text has. -/
theorem pieces_wraps (hsep : ¬ isBlank separator) (h : Wraps text core) :
    List.Forall₂ Wraps (pieces separator text) (pieces separator core) := by
  obtain ⟨before, after, rfl, hbefore, hafter⟩ := h
  have hends := pieces_append_forall₂ core fun hm => hsep (hafter separator hm)
  obtain ⟨t, ts, ht⟩ := List.exists_cons_of_ne_nil (pieces_ne_nil separator (core ++ after))
  have hwraps : ∀ t u, t = u ∨ t = u ++ after → Wraps t u := by
    rintro t u (rfl | rfl)
    · exact Wraps.refl t
    · exact ⟨[], after, rfl, nofun, hafter⟩
  rw [pieces_prepend (fun hm => hsep (hbefore separator hm)) ht]
  rw [ht] at hends
  obtain ⟨u, us, hfirst, hmore, hu⟩ := List.forall₂_cons_left_iff.mp hends
  rw [hu]
  exact .cons (.trans ⟨before, [], by simp, hbefore, nofun⟩ (hwraps t u hfirst)) (hmore.imp hwraps)

/-- The text is the name up to the blanks around it and the case of ASCII letters. -/
def Named (given : List Char) (name : String) : Prop :=
  ∃ core, Wraps given core ∧ core.map Char.toLower = name.toList.map Char.toLower

theorem isBlank_toLower (c : Char) : isBlank c.toLower = isBlank c := by
  have letters : ∀ n < 26, isBlank (Char.ofNat (65 + n)).toLower = isBlank (Char.ofNat (65 + n)) := by
    decide
  by_cases h : c.val ≥ 'A'.val ∧ c.val ≤ 'Z'.val
  · obtain ⟨hlow, hhigh⟩ : 65 ≤ c.toNat ∧ c.toNat ≤ 90 := h
    have hc := letters (c.toNat - 65) (by omega)
    rwa [Nat.add_sub_cancel' hlow, Char.ofNat_toNat] at hc
  · exact congrArg isBlank (dif_neg h)

/-- Of a text that is a name without blanks, trimming leaves just that. -/
theorem named_iff {given : List Char} {name : String} (hname : ∀ c ∈ name.toList, ¬ isBlank c) :
    Named given name ↔ (trim given).map Char.toLower = name.toList.map Char.toLower := by
  constructor
  · rintro ⟨core, hwraps, hcore⟩
    have hplain : ∀ c ∈ core, ¬ isBlank c := by
      intro c hc hblank
      have hmem : c.toLower ∈ core.map Char.toLower := List.mem_map_of_mem hc
      rw [hcore] at hmem
      obtain ⟨d, hd, he⟩ := List.mem_map.mp hmem
      apply hname d hd
      rw [← isBlank_toLower, he, isBlank_toLower]
      exact hblank
    have htight : Tight core :=
      ⟨fun c hc => hplain c (List.mem_of_head? hc), fun c hc => hplain c (List.mem_of_getLast? hc)⟩
    rw [trim_eq_of_trimmed ⟨hwraps, htight⟩]
    exact hcore
  · intro h
    exact ⟨trim given, (trimmed_trim given).1, h⟩

/-- What the names of a list must be for a text to be one of them at most. -/
structure Distinct {α : Type} (name : α → String) (all : List α) : Prop where
  mem_all : ∀ a, a ∈ all
  not_blank : ∀ a, (name a).toList.any isBlank = false
  inj : ∀ a b, (name a).toList.map Char.toLower = (name b).toList.map Char.toLower → a = b

section Distinct
variable {α : Type} {name : α → String} {all : List α} {a b : α} {given : List Char}
  (hd : Distinct name all)
include hd

theorem Distinct.plain (a : α) : ∀ c ∈ (name a).toList, ¬ isBlank c :=
  List.any_eq_false.mp (hd.not_blank a)

theorem Distinct.unique (ha : Named given (name a)) (hb : Named given (name b)) : a = b := by
  rw [named_iff (hd.plain _)] at ha hb
  exact hd.inj a b (ha.symm.trans hb)

theorem Distinct.named_wraps (h : Wraps text core) : Named text (name a) ↔ Named core (name a) := by
  rw [named_iff (hd.plain a), named_iff (hd.plain a), trim_wraps h]

theorem Distinct.namesLoosely_iff {given : String} :
    namesLoosely given (name a) ↔ Named given.toList (name a) := by
  rw [named_iff (hd.plain a), namesLoosely, beq_iff_eq]

theorem Distinct.readLoosely?_eq_some {given : String} :
    readLoosely? name all given = some a ↔ Named given.toList (name a) := by
  constructor
  · intro h
    have hfound := List.find?_some h
    exact hd.namesLoosely_iff.mp hfound
  · intro h
    cases hfind : readLoosely? name all given with
    | none =>
      have hnone := List.find?_eq_none.mp hfind a (hd.mem_all a)
      exact absurd (hd.namesLoosely_iff.mpr h) hnone
    | some b =>
      have hfound := List.find?_some hfind
      exact congrArg some (hd.unique (hd.namesLoosely_iff.mp hfound) h)

theorem Distinct.readLoosely?_eq_none {given : String} :
    readLoosely? name all given = none ↔ ∀ a, ¬ Named given.toList (name a) := by
  simp only [Option.eq_none_iff_forall_ne_some, ne_eq, hd.readLoosely?_eq_some]

end Distinct
end Text

namespace Period

theorem distinct_names : Text.Distinct name all where
  mem_all := mem_all
  not_blank p := by cases p <;> decide
  inj p q := by cases p <;> cases q <;> decide

theorem read_eq_ok {given : String} {p : Period} :
    read given = .ok p ↔ Text.Named given.toList p.name := by
  rw [← distinct_names.readLoosely?_eq_some, read]
  split <;> simp [*]

theorem read_eq_error {given : String} {e : Unknown} :
    read given = .error e ↔ (∀ p : Period, ¬ Text.Named given.toList p.name) ∧ e = ⟨given⟩ := by
  rw [← distinct_names.readLoosely?_eq_none, read]
  split <;> simp [*, eq_comm]

end Period

namespace Strategy

theorem distinct_names : Text.Distinct name all where
  mem_all := mem_all
  not_blank s := by cases s <;> decide
  inj s t := by cases s <;> cases t <;> decide

theorem read_eq_ok {given : String} {s : Strategy} :
    read given = .ok s ↔ Text.Named given.toList s.name := by
  rw [← distinct_names.readLoosely?_eq_some, read]
  split <;> simp [*]

theorem read_eq_error {given : String} {e : Unknown} :
    read given = .error e ↔ (∀ s : Strategy, ¬ Text.Named given.toList s.name) ∧ e = ⟨given⟩ := by
  rw [← distinct_names.readLoosely?_eq_none, read]
  split <;> simp [*, eq_comm]

end Strategy
end PartitionLedger

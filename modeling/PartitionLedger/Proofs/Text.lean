import Mathlib.Algebra.Group.Nat.Defs
import Mathlib.Data.List.Induction
import PartitionLedger.Text.Decimal
import PartitionLedger.Text.Split

/-! Texts that read back: numerals, of a fixed width or in any padding, and pieces without the separator. -/
namespace PartitionLedger.Text

variable {separator c : Char} {piece text : List Char} {texts : List (List Char)}

theorem foldl_fixed (width n : Nat) :
    (fixed width n).foldl (fun n c => 10 * n + (c.toNat - 48)) 0 = n % 10 ^ width := by
  induction width generalizing n with
  | zero => simp [fixed, Nat.mod_one]
  | succ width ih =>
    simp only [fixed, List.foldl_append, ih, List.foldl_cons, List.foldl_nil, value_digit]
    rw [Nat.pow_succ', Nat.mod_mul]
    omega

theorem fixed_ne_nil {width n : Nat} (hw : 0 < width) : fixed width n ≠ [] := by
  intro he
  have hl := length_fixed width n
  simp [he] at hl
  omega

theorem readNumber?_fixed {width n : Nat} (h : n < 10 ^ width) (hw : 0 < width) :
    readNumber? (fixed width n) = some n := by
  have hne := fixed_ne_nil (n := n) hw
  simp [readNumber?, hne, all_isDigit_fixed, foldl_fixed, Nat.mod_eq_of_lt h]

theorem not_mem_fixed (h : c.isDigit = false) (width n : Nat) : c ∉ fixed width n := by
  intro hc
  have hd := List.all_eq_true.mp (all_isDigit_fixed width n) c hc
  simp [h] at hd

section Numeral
variable {n : Nat}

/-- The decimal digits of a number, behind any number of zeros. -/
def Numeral (text : List Char) (n : Nat) : Prop :=
  ∃ zeros, text = List.replicate zeros '0' ++ Nat.toDigits 10 n

theorem toDigits_digit (h : c.isDigit) :
    c.toNat - 48 < 10 ∧ Nat.toDigits 10 (c.toNat - 48) = [c] := by
  obtain ⟨hlow, hhigh⟩ : 48 ≤ c.toNat ∧ c.toNat ≤ 57 := by
    simpa [Char.isDigit, UInt32.le_iff_toNat_le] using h
  have hlt : c.toNat - 48 < 10 := by omega
  have hchar : Nat.digitChar (c.toNat - 48) = c := by
    apply Char.toNat_inj.mp
    rw [Nat.toNat_digitChar_of_lt_ten hlt]
    omega
  exact ⟨hlt, by rw [Nat.toDigits_of_lt_base hlt, hchar]⟩

/-- A digit behind a numeral makes it that of ten times the number and the digit. -/
theorem Numeral.append_digit (h : Numeral text n) (hc : c.isDigit) :
    Numeral (text ++ [c]) (10 * n + (c.toNat - 48)) := by
  obtain ⟨hlt, hdigit⟩ := toDigits_digit hc
  obtain ⟨zeros, rfl⟩ := h
  rcases Nat.eq_zero_or_pos n with rfl | hpos
  · refine ⟨zeros + 1, ?_⟩
    rw [Nat.mul_zero, Nat.zero_add, hdigit, List.replicate_succ']
    rfl
  · refine ⟨zeros, ?_⟩
    rw [← Nat.toDigits_append_toDigits (by decide) hpos hlt, hdigit, List.append_assoc]

theorem numeral_ofDigitChars (hne : text ≠ []) (h : ∀ c ∈ text, c.isDigit) :
    Numeral text (Nat.ofDigitChars 10 text 0) := by
  induction text using List.reverseRecOn with
  | nil => exact absurd rfl hne
  | append_singleton text c ih =>
    have hc := h c (by simp)
    rw [Nat.ofDigitChars_append, Nat.ofDigitChars_cons, Nat.ofDigitChars_nil]
    cases text with
    | nil =>
      refine ⟨0, ?_⟩
      have hdigit := (toDigits_digit hc).2
      simpa using hdigit.symm
    | cons d rest => exact (ih nofun fun d hd => h d (List.mem_append_left _ hd)).append_digit hc

theorem Numeral.isDigit (h : Numeral text n) : ∀ c ∈ text, c.isDigit := by
  obtain ⟨zeros, rfl⟩ := h
  intro c hc
  rcases List.mem_append.mp hc with hc | hc
  · rw [List.eq_of_mem_replicate hc]
    rfl
  · exact Nat.isDigit_of_mem_toDigits (by decide) (by decide) hc

/-- A text is read as a number exactly if it is a numeral of it. -/
theorem readNumber?_eq_some : readNumber? text = some n ↔ Numeral text n := by
  have hread : readNumber? text = if text ≠ [] ∧ text.all Char.isDigit then
      some (Nat.ofDigitChars 10 text 0) else none := rfl
  rw [hread, Option.ite_none_right_eq_some, List.all_eq_true, Option.some.injEq]
  constructor
  · rintro ⟨⟨hne, hdigits⟩, rfl⟩
    exact numeral_ofDigitChars hne hdigits
  · intro h
    refine ⟨⟨?_, h.isDigit⟩, ?_⟩
    · obtain ⟨zeros, rfl⟩ := h
      simp [Nat.toDigits_ne_nil]
    · obtain ⟨zeros, rfl⟩ := h
      rw [Nat.ofDigitChars_append, Nat.ofDigitChars_replicate_zero, Nat.mul_zero,
        Nat.ofDigitChars_toDigits (by decide) (by decide)]

end Numeral

theorem pieces_of_not_mem (h : separator ∉ text) : pieces separator text = [text] := by
  induction text with
  | nil => rfl
  | cons c rest ih =>
    have hc : c ≠ separator := fun he => h (by simp [he])
    have hrest : separator ∉ rest := fun hm => h (by simp [hm])
    simp only [pieces, if_neg hc, ih hrest]

theorem pieces_append_separator (before text : List Char) :
    pieces separator (before ++ separator :: text) =
      pieces separator before ++ pieces separator text := by
  induction before with
  | nil => simp [pieces]
  | cons c rest ih =>
    by_cases hc : c = separator
    · simp only [List.cons_append, pieces, if_pos hc, ih]
    · obtain ⟨piece, more, hp⟩ := List.exists_cons_of_ne_nil (pieces_ne_nil separator rest)
      simp only [List.cons_append, pieces, if_neg hc, ih, hp]

theorem pieces_append (h : separator ∉ piece) :
    pieces separator (piece ++ separator :: text) = piece :: pieces separator text := by
  rw [pieces_append_separator, pieces_of_not_mem h]
  rfl

/-- What stands before the first separator, and what after it, is determined by the whole text. -/
theorem append_separator_inj {piece' text' : List Char} (h : separator ∉ piece)
    (h' : separator ∉ piece') (he : piece ++ separator :: text = piece' ++ separator :: text') :
    piece = piece' ∧ text = text' := by
  have hp := congrArg (pieces separator) he
  rw [pieces_append h, pieces_append h'] at hp
  obtain ⟨rfl, -⟩ := List.cons.inj hp
  exact ⟨rfl, List.tail_eq_of_cons_eq (List.append_cancel_left he)⟩

theorem getLast?_pieces_append (before text : List Char) :
    (pieces separator (before ++ separator :: text)).getLast? =
      (pieces separator text).getLast? := by
  have hsome : (pieces separator text).getLast?.isSome := by
    simpa using pieces_ne_nil separator text
  rw [pieces_append_separator, List.getLast?_append, Option.or_of_isSome hsome]

/-- Pieces that do not contain the separator come back as they were joined. -/
theorem pieces_join (hne : texts ≠ []) (h : ∀ t ∈ texts, separator ∉ t) :
    pieces separator (join separator texts) = texts := by
  induction texts with
  | nil => exact absurd rfl hne
  | cons t rest ih =>
    have ht := h t (by simp)
    cases rest with
    | nil => exact pieces_of_not_mem ht
    | cons u more =>
      have hrest := ih (by simp) (fun x hx => h x (List.mem_cons_of_mem t hx))
      simp only [join] at hrest ⊢
      rw [pieces_append ht, hrest]

theorem mem_join (h : c ∈ join separator texts) : c = separator ∨ ∃ t ∈ texts, c ∈ t := by
  induction texts with
  | nil => cases h
  | cons t rest ih =>
    cases rest with
    | nil => exact Or.inr ⟨t, by simp, h⟩
    | cons u more =>
      simp only [join, List.mem_append, List.mem_cons] at h
      rcases h with h | h | h
      · exact Or.inr ⟨t, by simp, h⟩
      · exact Or.inl h
      · rcases ih h with h | ⟨x, hx, hc⟩
        · exact Or.inl h
        · exact Or.inr ⟨x, List.mem_cons_of_mem t hx, hc⟩

end PartitionLedger.Text

import Mathlib.Data.List.Forall2
import PartitionLedger.Proofs.CanonicalText

/-!
For what a text is refused that is no canonical text of a period: it names an instant in a year after
9999, or a month between the starts of two quarters, or else its format is at fault.
-/
namespace PartitionLedger

open Calendar Period

namespace Field
variable {f : Field} {i : Instant} {text : List Char} {n : Nat}

/-- The text spells the number, in any zero padding; the number of a week stands behind a W. -/
def Spells (f : Field) (text : List Char) (n : Nat) : Prop :=
  match f with
  | week => ∃ digits, text = 'W' :: digits ∧ Text.Numeral digits n
  | _ => Text.Numeral text n

theorem read?_eq_some : f.read? text = some n ↔ f.Spells text n := by
  cases f with
  | week =>
    simp only [Spells]
    by_cases h : ∃ digits, text = 'W' :: digits
    · obtain ⟨digits, rfl⟩ := h
      simp [read?, Text.readNumber?_eq_some]
    · have hnone : week.read? text = none := by
        simp only [read?]
        split
        · exact absurd ⟨_, rfl⟩ h
        · rfl
        · contradiction
      rw [hnone]
      refine iff_of_false nofun ?_
      rintro ⟨digits, htext, -⟩
      exact h ⟨digits, htext⟩
  | year | month | day | hour | minute | second | weekYear => exact Text.readNumber?_eq_some

theorem Spells.hyphen_not_mem (h : f.Spells text n) : '-' ∉ text := by
  have hnumeral : ∀ {digits : List Char}, Text.Numeral digits n → '-' ∉ digits := by
    intro digits hdigits hmem
    exact absurd (hdigits.isDigit '-' hmem) (by decide)
  cases f with
  | week =>
    obtain ⟨digits, rfl, hdigits⟩ := h
    simp [hnumeral hdigits]
  | year | month | day | hour | minute | second | weekYear => exact hnumeral h

theorem Counts.eq_number (h : f.Counts i n) : n = f.number i := by
  cases f with
  | year | weekYear => exact (congrArg Int.toNat h : (n : Int).toNat = _)
  | month | day | hour | minute | second | week => exact h

end Field

namespace Period
variable {p : Period} {value : String} {i j : Instant}

/-- The text has the fields of the period, each spelling the number that an instant is counted by,
and the fields that it leaves out are at their least. -/
def Names (p : Period) (value : String) (i : Instant) : Prop :=
  p.shownAs.Aligned i ∧ ∃ texts, value.toList = Text.join '-' texts ∧
    List.Forall₂ (fun f text => ∃ n, f.Spells text n ∧ f.Counts i n) p.layout texts

theorem readFields?_cons {f : Field} {fields : List Field} {text : List Char}
    {texts : List (List Char)} {numbers : List Nat} :
    readFields? (f :: fields) (text :: texts) = some numbers ↔
      ∃ n more, f.Spells text n ∧ readFields? fields texts = some more ∧ n :: more = numbers := by
  simp only [readFields?, bind, pure, Option.bind_eq_some_iff, Field.read?_eq_some, Option.some.injEq]
  grind

theorem readFields?_map {g : Field → Nat} {fields : List Field} {texts : List (List Char)} :
    readFields? fields texts = some (fields.map g) ↔
      List.Forall₂ (fun f text => f.Spells text (g f)) fields texts := by
  induction fields generalizing texts with
  | nil => cases texts <;> simp [readFields?]
  | cons f rest ih =>
    cases texts with
    | nil => simp [readFields?]
    | cons text more =>
      rw [readFields?_cons, List.forall₂_cons, ← ih]
      constructor
      · rintro ⟨n, numbers, hn, hmore, he⟩
        obtain ⟨rfl, rfl⟩ := List.cons.inj he
        exact ⟨hn, hmore⟩
      · rintro ⟨hn, hmore⟩
        exact ⟨_, _, hn, hmore, rfl⟩

theorem hyphen_not_mem_texts {g : Field → Nat} {fields : List Field} {texts : List (List Char)}
    (h : List.Forall₂ (fun f text => f.Spells text (g f)) fields texts) :
    ∀ text ∈ texts, '-' ∉ text := by
  induction h with
  | nil => exact nofun
  | cons hfirst _ ih => exact List.forall_mem_cons.mpr ⟨hfirst.hyphen_not_mem, ih⟩

/-- The numbers that are read can be looked up by their fields. -/
theorem exists_numbers {fields : List Field} {texts : List (List Char)} {numbers : List Nat}
    (hnodup : fields.Nodup) (h : readFields? fields texts = some numbers) :
    ∃ g : Field → Nat, numbers = fields.map g := by
  induction fields generalizing texts numbers with
  | nil =>
    cases texts with
    | nil =>
      cases h
      exact ⟨fun _ => 0, rfl⟩
    | cons text more => cases h
  | cons f rest ih =>
    cases texts with
    | nil => cases h
    | cons text more =>
      obtain ⟨hnot, hnodup⟩ := List.nodup_cons.mp hnodup
      obtain ⟨n, numbers, -, hmore, rfl⟩ := readFields?_cons.mp h
      obtain ⟨g, rfl⟩ := ih hnodup hmore
      refine ⟨Function.update g f n, ?_⟩
      rw [List.map_cons, Function.update_self]
      congr 1
      apply List.map_congr_left
      intro other hother
      rw [Function.update_of_ne]
      rintro rfl
      exact hnot hother

theorem nodup_layout (p : Period) : p.layout.Nodup := by cases p <;> decide

/-- The numbers of a text are determined by the instant that it names. -/
theorem Names.fields (h : p.Names value i) : (∀ f ∈ p.layout, f.Counts i (f.number i)) ∧
    ∃ texts, value.toList = Text.join '-' texts ∧
      List.Forall₂ (fun f text => f.Spells text (f.number i)) p.layout texts := by
  obtain ⟨-, texts, htext, hfields⟩ := h
  have hnumbers := hfields.imp fun f text ⟨n, hspells, hcounts⟩ =>
    (⟨hcounts.eq_number ▸ hcounts, hcounts.eq_number ▸ hspells⟩ :
      f.Counts i (f.number i) ∧ f.Spells text (f.number i))
  obtain ⟨hcounts, hspells⟩ := (List.forall₂_and_left _ _).mp hnumbers
  exact ⟨hcounts, texts, htext, hspells⟩

/-- What a text is parsed as is what it names. -/
theorem named?_eq_some : p.named? value = some i ↔ p.Names value i := by
  simp only [named?, bind, Option.bind_eq_some_iff, Instant.ofUnix?_eq_some]
  constructor
  · rintro ⟨numbers, hread, seconds, hseconds, rfl, hn⟩
    obtain ⟨g, rfl⟩ := exists_numbers p.nodup_layout hread
    obtain ⟨haligned, hcounts⟩ := secondOf?_iff.mp ⟨hseconds, hn⟩
    refine ⟨haligned, _, (Text.join_pieces '-' _).symm, ?_⟩
    have hspells := (List.forall₂_and_left _ _).mpr ⟨hcounts, readFields?_map.mp hread⟩
    exact hspells.imp fun f text h => ⟨g f, h.2, h.1⟩
  · intro h
    obtain ⟨hcounts, texts, htext, hspells⟩ := h.fields
    have hpieces : Text.pieces '-' value.toList = texts := by
      rw [htext]
      apply Text.pieces_join
      · rintro rfl
        exact p.layout_ne_nil (List.forall₂_nil_right_iff.mp hspells)
      · exact hyphen_not_mem_texts hspells
    obtain ⟨hseconds, hn⟩ := secondOf?_iff.mpr ⟨h.1, hcounts⟩
    exact ⟨_, hpieces ▸ readFields?_map.mpr hspells, i.seconds, hseconds, rfl, hn⟩

theorem Names.unique (hi : p.Names value i) (hj : p.Names value j) : i = j := by
  rw [← named?_eq_some] at hi hj
  exact Option.some.inj (hi.symm.trans hj)

/-- No text names an instant before the year 0. -/
theorem Names.year_nonneg (h : p.Names value i) : 0 ≤ i.year := by
  by_cases hp : p = .weekly
  · subst hp
    have hn := h.fields.1 .weekYear (by decide)
    have hs := (aligned_iff_cellAt.mp h.1).1
    have hyear : 0 ≤ yearOf (7 * weekOf i.day) := by
      simp only [Field.Counts, Instant.weekYear, weekYear] at hn
      omega
    have hthursday := yearStart_le_iff.mpr hyear
    rw [yearStart_zero] at hthursday
    apply yearStart_le_iff.mp
    rw [yearStart_zero]
    simp only [shownAs, startOf, cellAt, weekStart, Instant.day] at hs hthursday ⊢
    omega
  · have hmem : Field.year ∈ p.layout := by cases p <;> first | decide | exact absurd rfl hp
    have hn := h.fields.1 .year hmem
    simp only [Field.Counts] at hn
    omega

/-- The cell that holds a named instant starts in the year of that instant. -/
theorem year_startOf (h : p.shownAs.Aligned i) :
    yearOf (p.startOf (p.cellAt i.seconds) / 86400) = i.year := by
  by_cases hp : p = .quarterly
  · subst hp
    have hday : 86400 * monthStart (3 * (monthOf i.day / 3)) / 86400 =
        monthStart (3 * (monthOf i.day / 3)) := Int.mul_ediv_cancel_left _ (by decide)
    change yearOf (86400 * monthStart (3 * (monthOf i.day / 3)) / 86400) = yearOf i.day
    rw [hday, yearOf, yearOf, monthOf_monthStart]
    omega
  · have hshown : p.shownAs = p := by cases p <;> first | rfl | exact absurd rfl hp
    rw [hshown, aligned_iff_cellAt] at h
    rw [← h.1]
    rfl

/-- A partition holds a named instant unless its year comes after 9999. -/
theorem Names.holding?_eq_none (h : p.Names value i) :
    Cell.holding? p i = none ↔ 9999 < i.year := by
  have hnonneg := h.year_nonneg
  have hbounds := p.cell_bounds_iff (c := p.cellAt i.seconds)
  rw [year_startOf h.1] at hbounds
  rw [Cell.holding?, Cell.ofNumber?]
  split
  · exact iff_of_false (Option.some_ne_none _) (by omega)
  · exact iff_of_true rfl (by omega)

theorem exists_month {year month : Nat} (hy : year ≤ 9999) (hm : 1 ≤ month) (hm' : month ≤ 12) :
    ∃ i : Instant, monthly.Aligned i ∧ (year : Int) = i.year ∧ month = i.month := by
  have hlow := monthStart_mono (a := 12 * 0) (b := 12 * (year : Int) + month - 1) (by omega)
  have hhigh := monthStart_mono (a := 12 * (year : Int) + month - 1) (b := 12 * 10000) (by omega)
  have h0 := yearStart_zero
  have h10000 := yearStart_10000
  have hfirst := Instant.first_day
  have hend := Instant.end_day
  simp only [yearStart] at h0 h10000 hfirst hend
  obtain ⟨i, hs, hn⟩ := Instant.exists_whole (s := 86400 * monthStart (12 * (year : Int) + month - 1))
    (by simp only [yearStart]; omega) (by simp only [yearStart]; omega)
  have hday : i.day = monthStart (12 * (year : Int) + month - 1) := by
    rw [Instant.day, hs, Int.mul_ediv_cancel_left _ (by decide)]
  refine ⟨i, aligned_iff.mpr ⟨⟨_, hs⟩, hn⟩, ?_, ?_⟩
  · rw [Instant.year, hday, yearOf, monthOf_monthStart]
    omega
  · rw [Instant.month, hday, monthOf_monthStart]
    omega

/-- The text is a year and a month, in any zero padding, and no quarter of the years of partitions
starts with that month. -/
def MidQuarter (value : String) : Prop :=
  ∃ year month yearText monthText, Text.Numeral yearText year ∧ Text.Numeral monthText month ∧
    value.toList = yearText ++ '-' :: monthText ∧
    year ≤ 9999 ∧ 1 ≤ month ∧ month ≤ 12 ∧ month % 3 ≠ 1

theorem midQuarter_iff : MidQuarter value ↔
    ∃ i, quarterly.Names value i ∧ i.year ≤ 9999 ∧ ¬ quarterly.Aligned i := by
  constructor
  · rintro ⟨year, month, yearText, monthText, hyear, hmonth, htext, hy, hm, hm', hmid⟩
    obtain ⟨i, haligned, hyi, hmi⟩ := exists_month hy hm hm'
    refine ⟨i, ⟨haligned, [yearText, monthText], htext,
      .cons ⟨year, hyear, hyi⟩ (.cons ⟨month, hmonth, hmi⟩ .nil)⟩, by omega, ?_⟩
    rw [aligned_quarterly, ← hmi]
    exact fun h => hmid h.1
  · rintro ⟨i, ⟨haligned, texts, htext, hfields⟩, hy, hmid⟩
    obtain ⟨yearText, _, ⟨year, hyear, hyi⟩, hrest, rfl⟩ := List.forall₂_cons_left_iff.mp hfields
    obtain ⟨monthText, _, ⟨month, hmonth, hmi⟩, hnil, rfl⟩ := List.forall₂_cons_left_iff.mp hrest
    cases hnil
    have hbounds : 1 ≤ i.month ∧ i.month ≤ 12 := by
      simp only [Instant.month]
      omega
    refine ⟨year, month, yearText, monthText, hyear, hmonth, htext, ?_⟩
    rw [aligned_quarterly] at hmid
    simp only [Field.Counts, Field.number] at hyi hmi
    rw [hmi]
    exact ⟨by omega, hbounds.1, hbounds.2, fun h => hmid ⟨h, haligned⟩⟩

theorem Names.aligned (h : p.Names value i) (hp : p ≠ .quarterly) : p.Aligned i := by
  have haligned := h.1
  cases p with
  | quarterly => exact absurd rfl hp
  | continuous | secondly | minutely | hourly | daily | weekly | monthly | yearly => exact haligned

end Period

namespace Cell
variable {p : Period} {value : String} {i : Instant} {c : Cell p}

theorem read_of_none (h : ∀ i, ¬ p.Names value i) : read p value = .error (.invalidFormat p value) := by
  have hnone : p.named? value = none := by
    simp only [Option.eq_none_iff_forall_ne_some, ne_eq, named?_eq_some]
    exact h
  rw [read, hnone]

theorem read_of_far (h : p.Names value i) (hy : 9999 < i.year) :
    read p value = .error (.outOfRange i) := by
  simp only [read, named?_eq_some.mpr h, h.holding?_eq_none.mpr hy]

theorem read_of_not_aligned (h : p.Names value i) (hy : i.year ≤ 9999) (hnot : ¬ p.Aligned i) :
    read p value = .error (.misaligned p value) := by
  obtain ⟨c, hc⟩ := Option.ne_none_iff_exists'.mp (mt h.holding?_eq_none.mp (by omega))
  have hstart : c.start ≠ i := by
    rintro rfl
    exact hnot c.aligned_start
  simp only [read, named?_eq_some.mpr h, hc, if_pos hstart]

/-- A boundary in the years of partitions that is not written canonically is refused for its format. -/
theorem read_of_aligned (h : p.Names value i) (hy : i.year ≤ 9999) (ha : p.Aligned i) :
    read p value = .error (.invalidFormat p value) ∨ ∃ c : Cell p, read p value = .ok c := by
  obtain ⟨c, rfl⟩ := exists_start ha ⟨h.year_nonneg, hy⟩
  by_cases htext : c.text = value
  · exact Or.inr ⟨c, read_eq_ok.mpr htext.symm⟩
  · left
    simp only [read, named?_eq_some.mpr h, c.holding?_start, ne_eq, not_true_eq_false, if_false,
      if_pos htext]

/-- What can come of reading a text. -/
theorem read_cases (p : Period) (value : String) :
    (∃ i, (p.Names value i ∧ 9999 < i.year) ∧ read p value = .error (.outOfRange i)) ∨
    (p = .quarterly ∧ MidQuarter value) ∧ read p value = .error (.misaligned p value) ∨
    (∀ i, p.Names value i → i.year ≤ 9999 ∧ p.Aligned i) ∧
      (read p value = .error (.invalidFormat p value) ∨ ∃ c : Cell p, read p value = .ok c) := by
  by_cases hnames : ∃ i, p.Names value i
  · obtain ⟨i, hi⟩ := hnames
    by_cases hy : 9999 < i.year
    · exact Or.inl ⟨i, ⟨hi, hy⟩, read_of_far hi hy⟩
    · have hy : i.year ≤ 9999 := Int.not_lt.mp hy
      by_cases ha : p.Aligned i
      · refine Or.inr (Or.inr ⟨?_, read_of_aligned hi hy ha⟩)
        intro j hj
        rw [hj.unique hi]
        exact ⟨hy, ha⟩
      · have hp : p = .quarterly := Decidable.byContradiction fun hp => ha (hi.aligned hp)
        subst hp
        have hmid := midQuarter_iff.mpr ⟨i, hi, hy, ha⟩
        exact Or.inr (Or.inl ⟨⟨rfl, hmid⟩, read_of_not_aligned hi hy ha⟩)
  · rw [not_exists] at hnames
    exact Or.inr (Or.inr ⟨fun i hi => absurd hi (hnames i), Or.inl (read_of_none hnames)⟩)

theorem read_eq_outOfRange :
    read p value = .error (.outOfRange i) ↔ p.Names value i ∧ 9999 < i.year := by
  refine ⟨fun h => ?_, fun h => read_of_far h.1 h.2⟩
  rcases read_cases p value with ⟨j, hj, hread⟩ | ⟨-, hread⟩ | ⟨-, hread | ⟨c, hread⟩⟩
  · cases hread.symm.trans h
    exact hj
  all_goals cases hread.symm.trans h

theorem read_eq_misaligned {q : Period} {v : String} : read p value = .error (.misaligned q v) ↔
    (q = p ∧ v = value) ∧ p = .quarterly ∧ MidQuarter value := by
  constructor
  · intro h
    rcases read_cases p value with ⟨j, -, hread⟩ | ⟨hmid, hread⟩ | ⟨-, hread | ⟨c, hread⟩⟩
    case inr.inl =>
      cases hread.symm.trans h
      exact ⟨⟨rfl, rfl⟩, hmid⟩
    all_goals cases hread.symm.trans h
  · rintro ⟨⟨rfl, rfl⟩, rfl, hmid⟩
    obtain ⟨i, hi, hy, ha⟩ := midQuarter_iff.mp hmid
    exact read_of_not_aligned hi hy ha

/-- A text that is not canonical and has none of the other faults is refused for its format. -/
theorem read_eq_invalidFormat {q : Period} {v : String} :
    read p value = .error (.invalidFormat q v) ↔
      (q = p ∧ v = value) ∧ (∀ c : Cell p, value ≠ c.text) ∧
        (∀ i, p.Names value i → i.year ≤ 9999) ∧ ¬ (p = .quarterly ∧ MidQuarter value) := by
  constructor
  · intro h
    have hcanonical : ∀ c : Cell p, value ≠ c.text := by
      intro c hc
      cases (read_eq_ok.mpr hc).symm.trans h
    rcases read_cases p value with ⟨j, -, hread⟩ | ⟨-, hread⟩ | ⟨hplain, hread | ⟨c, hread⟩⟩
    case inr.inr.inl =>
      cases hread.symm.trans h
      refine ⟨⟨rfl, rfl⟩, hcanonical, fun i hi => (hplain i hi).1, ?_⟩
      rintro ⟨rfl, hmid⟩
      obtain ⟨i, hi, -, ha⟩ := midQuarter_iff.mp hmid
      exact ha (hplain i hi).2
    all_goals cases hread.symm.trans h
  · rintro ⟨⟨rfl, rfl⟩, hcanonical, hnear, hmid⟩
    rcases read_cases q v with ⟨i, ⟨hi, hy⟩, -⟩ | ⟨h, -⟩ | ⟨-, hread | ⟨c, hread⟩⟩
    · have := hnear i hi
      omega
    · exact absurd h hmid
    · exact hread
    · exact absurd (read_eq_ok.mp hread) (hcanonical c)

end Cell

namespace Partition

/-- A text is refused as out of range exactly if it names an instant in a year after 9999, aligned or
not, as misaligned exactly if it is the year and the month of no quarter's start, and for its format
exactly if it has none of these faults and is not canonical; there is no other error. -/
theorem read_faults_classified (p : Period) (value : String) :
    (∀ i, read p value = .error (.outOfRange i) ↔ p.Names value i ∧ 9999 < i.year) ∧
    (∀ q v, read p value = .error (.misaligned q v) ↔
      (q = p ∧ v = value) ∧ p = .quarterly ∧ MidQuarter value) ∧
    (∀ q v, read p value = .error (.invalidFormat q v) ↔
      (q = p ∧ v = value) ∧ (∀ c : Cell p, value ≠ c.text) ∧
        (∀ i, p.Names value i → i.year ≤ 9999) ∧ ¬ (p = .quarterly ∧ MidQuarter value)) ∧
    ∀ lower upper fault, read p value ≠ .error (.invalidRange lower upper fault) := by
  simp only [read, ne_eq, map_eq_error]
  refine ⟨fun i => Cell.read_eq_outOfRange, fun q v => Cell.read_eq_misaligned,
    fun q v => Cell.read_eq_invalidFormat, ?_⟩
  intro lower upper fault h
  rcases Cell.read_cases p value with ⟨j, -, hread⟩ | ⟨-, hread⟩ | ⟨-, hread | ⟨c, hread⟩⟩
  all_goals cases hread.symm.trans h

/-- The first week of the year 10000 with more zeros than it needs and one less, a month in the middle
of a quarter, and a day that its month does not have. -/
theorem read_faults_classified_of_each :
    let monday : Instant := ⟨253402473600, 0, by decide, by decide, by decide⟩
    read .weekly "010000-W1" = .error (.outOfRange monday) ∧
      read .quarterly "2024-05" = .error (.misaligned .quarterly "2024-05") ∧
      read .daily "2024-02-30" = .error (.invalidFormat .daily "2024-02-30") := by
  intro monday
  refine ⟨?_, ?_, ?_⟩
  · have hyear : (10000 : Int) = monday.weekYear := by decide +kernel
    have hnumber : 1 = monday.week := by decide +kernel
    have hweek : Period.weekly.Names "010000-W1" monday :=
      ⟨by decide +kernel, ["010000".toList, "W1".toList], by decide,
        .cons ⟨10000, ⟨1, by decide⟩, hyear⟩
          (.cons ⟨1, ⟨['1'], rfl, 0, by decide⟩, hnumber⟩ .nil)⟩
    exact ((read_faults_classified _ _).1 _).mpr ⟨hweek, by decide +kernel⟩
  · have hmid : MidQuarter "2024-05" :=
      ⟨2024, 5, "2024".toList, "05".toList, ⟨0, by decide⟩, ⟨1, by decide⟩, by decide, by decide⟩
    exact ((read_faults_classified _ _).2.1 _ _).mpr ⟨⟨rfl, rfl⟩, rfl, hmid⟩
  · have hnone : Period.daily.named? "2024-02-30" = none := by decide +kernel
    refine ((read_faults_classified _ _).2.2.1 _ _).mpr ⟨⟨rfl, rfl⟩, ?_, ?_, fun h => nomatch h.1⟩
    · intro c hc
      have hnamed := c.named?_text
      rw [← hc, hnone] at hnamed
      cases hnamed
    · intro i hi
      rw [← named?_eq_some, hnone] at hi
      cases hi

end Partition
end PartitionLedger

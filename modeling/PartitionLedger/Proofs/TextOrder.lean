import Mathlib.Tactic.SplitIfs
import PartitionLedger.Proofs.Nesting
import PartitionLedger.Proofs.StoredTimeline

/-!
Canonical texts, sorted by their bytes, are in the order of the partitions they are written for: fields stand
from the widest to the narrowest, in as many digits for every partition.

Texts sort by their bytes as by their characters, so only the last step is about bytes.
-/
namespace PartitionLedger

open Calendar Period

namespace Text
variable {c d : Char} {cs ds : List Char} {xs ys : List UInt8} {s t : String}

/-- The bytes that a text is stored as. -/
def bytes (text : String) : List UInt8 := text.toUTF8.data.toList

/-- The text comes before the other one where texts are sorted by their bytes. -/
def Before (s t : String) : Prop := compare (bytes s) (bytes t) = .lt

instance (s t : String) : Decidable (Before s t) := inferInstanceAs (Decidable (_ = _))

/-- Of two characters the earlier one has the earlier bytes, and neither has the first bytes of the other. -/
theorem utf8EncodeChar_append_lt (h : c < d) (xs ys : List UInt8) :
    String.utf8EncodeChar c ++ xs < String.utf8EncodeChar d ++ ys := by
  have hlt : c.val.toNat < d.val.toNat := h
  have hd : d.val.toNat < 0x110000 := by
    have hvalid : d.val.toNat < 0xd800 ∨ 0xdfff < d.val.toNat ∧ d.val.toNat < 0x110000 := d.valid
    omega
  -- the bytes show digits to the base 64, found by one division after the other
  have hthird (n : Nat) : n / 4096 = n / 64 / 64 := by omega
  have hfourth (n : Nat) : n / 262144 = n / 64 / 64 / 64 := by omega
  simp only [String.utf8EncodeChar, hthird, hfourth]
  split_ifs <;>
    simp only [List.cons_append, List.nil_append, List.cons_lt_cons_iff, UInt8.lt_iff_toNat_lt,
      ← UInt8.toNat_inj, UInt8.toNat_ofNat'] <;>
    omega

theorem bytes_eq (s : String) : bytes s = s.toList.flatMap String.utf8EncodeChar := by
  conv => lhs; rw [← String.ofList_toList (s := s)]
  simp only [bytes, String.toUTF8_eq_toByteArray, String.toByteArray_ofList, List.utf8Encode,
    List.data_toByteArray]

theorem flatMap_lt (h : cs < ds) :
    cs.flatMap String.utf8EncodeChar < ds.flatMap String.utf8EncodeChar := by
  induction h with
  | nil =>
    rename_i d rest
    obtain ⟨x, xs, hx⟩ := List.exists_cons_of_ne_nil (String.utf8EncodeChar_ne_nil (c := d))
    simp only [List.flatMap_nil, List.flatMap_cons, hx, List.cons_append]
    exact List.nil_lt_cons _ _
  | rel hlt =>
    simp only [List.flatMap_cons]
    exact utf8EncodeChar_append_lt hlt _ _
  | cons _ ih =>
    simp only [List.flatMap_cons]
    exact List.append_left_lt ih

theorem compare_eq_lt (h : xs < ys) : compare xs ys = .lt := by
  induction h with
  | nil => rfl
  | rel hlt =>
    rw [List.compare_cons_cons, Std.compare_eq_lt.mpr hlt]
    rfl
  | cons _ ih =>
    rw [List.compare_cons_cons, Std.ReflOrd.compare_self]
    exact ih

theorem before_of_lt (h : s.toList < t.toList) : Before s t := by
  have hbytes := flatMap_lt h
  rw [← bytes_eq, ← bytes_eq] at hbytes
  exact compare_eq_lt hbytes

theorem digit_lt {m n : Nat} (h : m % 10 < n % 10) : digit m < digit n := by
  have all : ∀ b < 10, ∀ a < b, Char.ofNat (48 + a) < Char.ofNat (48 + b) := by decide
  exact all (n % 10) (Nat.mod_lt _ (by decide)) (m % 10) h

/-- Numerals of one width are in the order of their numbers, whatever follows them. -/
theorem fixed_append_lt {m n width : Nat} (h : m < n) (hn : n < 10 ^ width) (cs ds : List Char) :
    fixed width m ++ cs < fixed width n ++ ds := by
  induction width generalizing m n cs ds with
  | zero =>
    rw [Nat.pow_zero] at hn
    omega
  | succ width ih =>
    simp only [fixed, List.append_assoc]
    by_cases hdiv : m / 10 < n / 10
    · have hfront : n / 10 < 10 ^ width := by
        rw [Nat.pow_succ] at hn
        omega
      exact ih hdiv hfront _ _
    · have hsame : m / 10 = n / 10 := by omega
      have hlast : digit m < digit n := digit_lt (by omega)
      rw [hsame]
      exact List.append_left_lt (List.cons_lt_cons_iff.mpr (Or.inl hlast))

theorem join_cons (separator : Char) (piece : List Char) (more : List (List Char)) :
    join separator (piece :: more) = piece ++ if more = [] then [] else separator :: join separator more := by
  cases more <;> simp [join]

end Text

namespace Field
variable {f : Field} {i j : Instant} {fields : List Field}

theorem write_congr (hi : f.Plain i) (hj : f.Plain j) (h : f.number i = f.number j) :
    f.write i = f.write j := by
  rw [write_eq hi, write_eq hj, digits_eq, digits_eq, h]

theorem write_append_lt (hi : f.Plain i) (hj : f.Plain j) (h : f.number i < f.number j)
    (cs ds : List Char) : f.write i ++ cs < f.write j ++ ds := by
  have hdigits := Text.fixed_append_lt h (number_lt hj) cs ds
  rw [← digits_eq, ← digits_eq] at hdigits
  rw [write_eq hi, write_eq hj]
  split
  · exact List.cons_lt_cons_iff.mpr (Or.inr ⟨rfl, hdigits⟩)
  · exact hdigits

/-- What instants are written as in a list of fields is in the order of their numbers, by the first field in
which they differ. -/
theorem join_write_lt (hi : ∀ f ∈ fields, f.Plain i) (hj : ∀ f ∈ fields, f.Plain j)
    (h : fields.map (·.number i) < fields.map (·.number j)) :
    Text.join '-' (fields.map (·.write i)) < Text.join '-' (fields.map (·.write j)) := by
  induction fields with
  | nil => exact absurd h (List.not_lt_nil _)
  | cons f rest ih =>
    obtain ⟨hfi, hri⟩ := List.forall_mem_cons.mp hi
    obtain ⟨hfj, hrj⟩ := List.forall_mem_cons.mp hj
    simp only [List.map_cons, Text.join_cons, List.map_eq_nil_iff]
    rcases List.cons_lt_cons_iff.mp h with hlt | ⟨heq, hrest⟩
    · exact write_append_lt hfi hfj hlt _ _
    · have hne : rest ≠ [] := by
        rintro rfl
        exact List.not_lt_nil _ hrest
      rw [write_congr hfi hfj heq, if_neg hne, if_neg hne]
      exact List.append_left_lt (List.cons_lt_cons_iff.mpr (Or.inr ⟨rfl, ih hri hrj hrest⟩))

end Field

namespace Calendar
variable {day day' week week' : Int}

theorem monthOf_mono (h : day ≤ day') : monthOf day ≤ monthOf day' := by
  have hseconds : 86400 * day ≤ 86400 * day' := by omega
  simpa [cellAt] using monthly.cellAt_mono hseconds

/-- Weeks are in the order of their years and, within a year, of their numbers. -/
theorem weekYear_lt_or (h : week < week') : weekYear week < weekYear week' ∨
    weekYear week = weekYear week' ∧ weekNumber week < weekNumber week' := by
  have hmonth : monthOf (7 * week) ≤ monthOf (7 * week') := monthOf_mono (by omega)
  have hyear : weekYear week ≤ weekYear week' := by
    simp only [weekYear, yearOf]
    omega
  rcases Int.lt_or_eq_of_le hyear with hlt | heq
  · exact Or.inl hlt
  · refine Or.inr ⟨heq, ?_⟩
    simp only [weekNumber, heq]
    omega

end Calendar

namespace Instant
variable {i j : Instant}

theorem year_month_lt_or (h : monthOf i.day < monthOf j.day) :
    i.year < j.year ∨ i.year = j.year ∧ i.month < j.month := by
  simp only [year, yearOf, month]
  omega

theorem clock_lt_or (hi : i.nanos = 0) (hj : j.nanos = 0) (hday : i.day = j.day)
    (h : i.seconds < j.seconds) : i.hour < j.hour ∨ i.hour = j.hour ∧
      (i.minute < j.minute ∨ i.minute = j.minute ∧ i.second < j.second) := by
  simp only [day, hour, minute, second, hi, hj] at hday ⊢
  omega

/-- Whole seconds are in the order of their dates and, on one date, of their times of day. -/
theorem date_lt (hi : i.nanos = 0) (hj : j.nanos = 0) (hyear : 0 ≤ i.year) (h : i.seconds < j.seconds) :
    let fields : List Field := [.year, .month, .day, .hour, .minute, .second]
    fields.map (·.number i) < fields.map (·.number j) := by
  have hiday : i.day = i.seconds / 86400 := rfl
  have hjday : j.day = j.seconds / 86400 := rfl
  have hday : i.day ≤ j.day := by omega
  simp only [List.map_cons, List.map_nil, List.cons_lt_cons_iff, List.not_lt_nil, and_false, or_false,
    Field.number]
  rcases Int.lt_or_eq_of_le (monthOf_mono hday) with hmonth | hmonth
  · have hearlier := year_month_lt_or hmonth
    omega
  · have hsame : i.year = j.year ∧ i.month = j.month := by
      simp only [year, yearOf, month, hmonth, and_self]
    have hstart := monthOf_start_le i.day
    have hidom : i.dayOfMonth = (i.day - monthStart (monthOf i.day) + 1).toNat := rfl
    have hjdom : j.dayOfMonth = (j.day - monthStart (monthOf i.day) + 1).toNat := by
      rw [hmonth]
      rfl
    rcases Int.lt_or_eq_of_le hday with hlt | heq
    · omega
    · have hclock := clock_lt_or hi hj heq h
      omega

end Instant

namespace Cell
variable {p : Period} {c d : Cell p}

/-- The numbers that cells are written with are in the order of the cells. -/
theorem numbers_lt (h : c < d) :
    p.layout.map (·.number c.start) < p.layout.map (·.number d.start) := by
  have hseconds : c.start.seconds < d.start.seconds := p.startOf_lt_iff.mpr h
  have hdate := Instant.date_lt rfl rfl c.year_start.1 hseconds
  -- the fields that a period leaves out are the same at all its boundaries
  have hc := aligned_shownAs c.aligned_start
  have hd := aligned_shownAs d.aligned_start
  cases p with
  | continuous | secondly => exact hdate
  | minutely | hourly | daily | monthly | quarterly | yearly =>
    simp only [shownAs, aligned_yearly, aligned_monthly, aligned_daily, aligned_hourly, aligned_minutely]
      at hc hd
    simp only [layout, List.map_cons, List.map_nil, List.cons_lt_cons_iff, List.not_lt_nil, and_false,
      or_false, Field.number, hc, hd] at hdate ⊢
    omega
  | weekly =>
    have hcyear := c.weekYear_start_plain.1
    have hdyear := d.weekYear_start_plain.1
    have hcweek := (weekNumber_bounds (weekOf c.start.day)).1
    have hweek : weekOf c.start.day < weekOf d.start.day := by
      rw [weekOf_start, weekOf_start]
      exact h
    have hnumber := weekYear_lt_or hweek
    simp only [layout, List.map_cons, List.map_nil, List.cons_lt_cons_iff, List.not_lt_nil, and_false,
      or_false, Field.number, Instant.weekYear, Instant.week] at hcyear hdyear ⊢
    omega

theorem text_lt (h : c < d) : c.text.toList < d.text.toList := by
  have hjoin := Field.join_write_lt c.layout_plain d.layout_plain (numbers_lt h)
  simpa only [text, Period.write, String.toList_ofList] using hjoin

theorem before_text (h : c < d) : Text.Before c.text d.text := Text.before_of_lt (text_lt h)

theorem compare_bytes_text (c d : Cell p) :
    compare (Text.bytes c.text) (Text.bytes d.text) = compare c.number d.number := by
  rcases Int.lt_trichotomy c.number d.number with hlt | heq | hgt
  · rw [Int.compare_eq_lt.mpr hlt]
    exact before_text hlt
  · rw [ext_number heq, Std.ReflOrd.compare_self, Std.ReflOrd.compare_self]
  · have hbefore : compare (Text.bytes d.text) (Text.bytes c.text) = .lt := before_text hgt
    rw [Std.OrientedOrd.eq_swap, hbefore, Int.compare_eq_gt.mpr hgt]
    rfl

end Cell

namespace CellSet
variable {p : Period}

/-- The texts of a list come in the order that texts are sorted in. -/
theorem write_ascending (cells : CellSet p) :
    ((Text.pieces ',' cells.write.toList).map String.ofList).Pairwise Text.Before := by
  by_cases h : cells = ∅
  · rw [write_eq_empty.mpr h]
    exact List.pairwise_singleton _ _
  · rw [pieces_write h, List.pairwise_map, List.pairwise_map]
    refine cells.ascending.imp fun hlt => ?_
    rw [String.ofList_toList, String.ofList_toList]
    exact Cell.before_text hlt

end CellSet

/-- A single canonical text is a list of one. -/
theorem Cell.text_ascending {p : Period} (c : Cell p) :
    ((Text.pieces ',' c.text.toList).map String.ofList).Pairwise Text.Before := by
  rw [Text.pieces_of_not_mem c.comma_not_mem_text]
  exact List.pairwise_singleton _ _

namespace Partition
variable {q r : Partition}

theorem compare?_eq (q r : Partition) : q.compare? r =
    if q.period = r.period then some (compare (Text.bytes q.text) (Text.bytes r.text)) else none := by
  obtain ⟨p, c⟩ := q
  obtain ⟨p', d⟩ := r
  by_cases hp : p = p'
  · subst hp
    simp only [compare?, text, if_pos, Cell.compare_bytes_text]
  · simp only [compare?, if_neg hp]

theorem compare?_eq_eq_iff : q.compare? r = some .eq ↔ q = r := by
  obtain ⟨p, c⟩ := q
  obtain ⟨p', d⟩ := r
  by_cases hp : p = p'
  · subst hp
    simp [compare?, Cell.eq_iff_number]
  · simp [compare?, hp]

/-- The order of partitions is that of the instants they start at. -/
theorem lt_iff_start : q < r ↔ q.period = r.period ∧ q.start < r.start := by
  obtain ⟨p, c⟩ := q
  obtain ⟨p', d⟩ := r
  constructor
  · intro h
    obtain rfl : p = p' := period_eq_of_le (le_of_lt h)
    exact ⟨rfl, Cell.start_lt_iff.mpr (mk_lt_mk.mp h)⟩
  · rintro ⟨hp, h⟩
    obtain rfl : p = p' := hp
    exact mk_lt_mk.mpr (Cell.start_lt_iff.mp h)

end Partition

namespace Contents
variable {p : Period} {t : Contents p} {property : Property} {value : String}

theorem valueOf_ascending (h : t.valueOf property = some value) :
    ((Text.pieces ',' value.toList).map String.ofList).Pairwise Text.Before := by
  have hends : ∀ (ends : Option (Ends p)) (side : Ends p → Cell p),
      ends.map (fun ends => (side ends).text) = some value →
      ((Text.pieces ',' value.toList).map String.ofList).Pairwise Text.Before := by
    intro ends side hvalue
    obtain ⟨e, -, rfl⟩ := Option.map_eq_some_iff.mp hvalue
    exact (side e).text_ascending
  cases t with
  | listed t =>
    cases property with
    | partitions =>
      cases h
      exact t.partitions.write_ascending
    | first | latest | holes | storageClass => cases h
  | holed t =>
    cases property with
    | holes =>
      cases h
      exact t.holes.write_ascending
    | first => exact hends t.ends Ends.first h
    | latest => exact hends t.ends Ends.latest h
    | partitions | storageClass => cases h
  | span t =>
    cases property with
    | first => exact hends t.ends Ends.first h
    | latest => exact hends t.ends Ends.latest h
    | partitions | holes | storageClass => cases h

end Contents

namespace Partition

/-- Partitions of one period, and no others, are compared, and compare as the bytes of their canonical texts
do: equal ones are the same, and the lesser one starts before. So the texts in any value that a timeline is
stored in ascend too. -/
theorem texts_sort_as_partitions :
    (∀ q r : Partition, q.compare? r =
      if q.period = r.period then some (compare (Text.bytes q.text) (Text.bytes r.text)) else none) ∧
    (∀ q r : Partition, q.compare? r = some .eq ↔ q = r) ∧
    (∀ q r : Partition, q < r ↔ q.period = r.period ∧ q.start < r.start) ∧
    ∀ (t : Timeline) (property : Property) (value : String),
      t.encode.get? property.name = some value →
      ((Text.pieces ',' value.toList).map String.ofList).Pairwise Text.Before := by
  refine ⟨compare?_eq, fun _ _ => compare?_eq_eq_iff, fun _ _ => lt_iff_start, ?_⟩
  intro t property value hvalue
  rw [Timeline.encode, Contents.get?_encode] at hvalue
  exact Contents.valueOf_ascending hvalue

/-- The first week of the year 1000 starts in December 999, and is sorted behind the last one of that year. -/
theorem texts_sort_as_partitions_of_weeks :
    let last : Partition := ⟨.weekly, -50613, by decide, by decide⟩
    let first : Partition := ⟨.weekly, -50612, by decide, by decide⟩
    let key : Key := ⟨"events", .weekly, "wk"⟩
    let t := (Timeline.empty key .storeAll).edits [.addAll [first, last]]
    last.text = "0999-W52" ∧ first.text = "1000-W01" ∧ first.start.year = 999 ∧
      last.compare? first = some .lt ∧ compare (Text.bytes "0999-W52") (Text.bytes "1000-W01") = .lt ∧
      t.encode.get? "partitions" = some "0999-W52,1000-W01" ∧
      ["0999-W52", "1000-W01"].Pairwise Text.Before := by
  intro last first key t
  obtain ⟨hcompare, -, -, hlists⟩ := texts_sort_as_partitions
  have hlast : last.text = "0999-W52" := by decide +kernel
  have hfirst : first.text = "1000-W01" := by decide +kernel
  have hless : last.compare? first = some .lt := by decide
  have hbytes := (hcompare last first).symm.trans hless
  rw [if_pos rfl, hlast, hfirst] at hbytes
  have hvalue : t.encode.get? Property.partitions.name = some "0999-W52,1000-W01" := by decide +kernel
  exact ⟨hlast, hfirst, by decide +kernel, hless, Option.some.inj hbytes, hvalue,
    hlists t .partitions _ hvalue⟩

end Partition
end PartitionLedger

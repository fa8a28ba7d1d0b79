import PartitionLedger.Proofs.CalendarFields
import PartitionLedger.Proofs.Outcome
import PartitionLedger.Proofs.Text

/-!
Every partition is read back from its canonical text, and nothing else is read: the canonical texts of a
period are as many as the boundaries it has in the years of partitions.
-/
namespace PartitionLedger

open Calendar Period

namespace Field
variable {i : Instant} {f : Field}

/-- The years that the field shows of an instant are those of partitions. -/
def Plain : Field → Instant → Prop
  | year, i => 0 ≤ i.year ∧ i.year ≤ 9999
  | weekYear, i => 0 ≤ i.weekYear ∧ i.weekYear ≤ 9999
  | _, _ => True

/-- The digits with which the field shows an instant. -/
def digits (f : Field) (i : Instant) : List Char :=
  match f with
  | year | weekYear => Text.fixed 4 (f.number i)
  | _ => Text.fixed 2 (f.number i)

theorem writeYear_plain {year : Int} (h : 0 ≤ year ∧ year ≤ 9999) :
    Instant.writeYear year = Text.fixed 4 year.toNat := by
  have hn : ¬ year < 0 := by omega
  simp only [Instant.writeYear, hn, h.2, ↓reduceIte]

theorem write_eq (h : f.Plain i) :
    f.write i = if f = week then 'W' :: f.digits i else f.digits i := by
  cases f with
  | year => exact writeYear_plain h
  | weekYear => exact writeYear_plain h
  | month | day | hour | minute | second | week => rfl

/-- How many digits the field has. -/
def width : Field → Nat
  | year | weekYear => 4
  | _ => 2

theorem digits_eq (f : Field) (i : Instant) : f.digits i = Text.fixed f.width (f.number i) := by
  cases f <;> rfl

theorem number_lt (h : f.Plain i) : f.number i < 10 ^ f.width := by
  cases f with
  | year | weekYear =>
    simp only [Plain, number, width] at h ⊢
    omega
  | month =>
    simp only [number, width, Instant.month]
    omega
  | day =>
    have hl := monthLength_bounds (monthOf i.day)
    have hu := lt_monthOf_succ_start i.day
    simp only [number, width, Instant.dayOfMonth, monthLength] at hl ⊢
    omega
  | hour =>
    simp only [number, width, Instant.hour]
    omega
  | minute =>
    simp only [number, width, Instant.minute]
    omega
  | second =>
    have hn := i.nanos_lt
    simp only [number, width, Instant.second]
    omega
  | week =>
    have hw := weekNumber_bounds (weekOf i.day)
    simp only [number, width, Instant.week]
    omega

theorem readNumber?_digits (h : f.Plain i) : Text.readNumber? (f.digits i) = some (f.number i) := by
  have hwidth : 0 < f.width := by cases f <;> decide
  rw [digits_eq]
  exact Text.readNumber?_fixed (number_lt h) hwidth

theorem counts_number (h : f.Plain i) : f.Counts i (f.number i) := by
  cases f with
  | year | weekYear => exact Int.toNat_of_nonneg h.1
  | month | day | hour | minute | second | week => rfl

theorem read?_write (h : f.Plain i) : f.read? (f.write i) = some (f.number i) := by
  rw [write_eq h, ← readNumber?_digits h]
  cases f <;> rfl

theorem not_mem_write {c : Char} (h : f.Plain i) (hd : c.isDigit = false) (hw : c ≠ 'W') :
    c ∉ f.write i := by
  have hf : c ∉ f.digits i := by
    rw [digits_eq]
    exact Text.not_mem_fixed hd _ _
  rw [write_eq h]
  split
  · intro hm
    rcases List.mem_cons.mp hm with hm | hm
    · exact hw hm
    · exact hf hm
  · exact hf

end Field

namespace Period
variable {p : Period} {i : Instant}

theorem readFields?_write {fields : List Field} (h : ∀ f ∈ fields, f.Plain i) :
    readFields? fields (fields.map fun f => f.write i) = some (fields.map fun f => f.number i) := by
  induction fields with
  | nil => rfl
  | cons f rest ih =>
    have hf := Field.read?_write (h f (by simp))
    have hrest := ih (fun g hg => h g (List.mem_cons_of_mem f hg))
    simp only [List.map_cons, readFields?, hf, hrest]
    rfl

theorem layout_ne_nil (p : Period) : p.layout ≠ [] := by cases p <;> simp [layout]

theorem pieces_write (h : ∀ f ∈ p.layout, f.Plain i) :
    Text.pieces '-' (p.write i).toList = p.layout.map fun f => f.write i := by
  rw [write, String.toList_ofList]
  apply Text.pieces_join
  · simpa using p.layout_ne_nil
  · intro t ht
    obtain ⟨f, hf, rfl⟩ := List.mem_map.mp ht
    exact Field.not_mem_write (h f hf) (by decide) (by decide)

theorem named?_write (h : ∀ f ∈ p.layout, f.Plain i) :
    p.named? (p.write i) =
      (p.secondOf? (p.layout.map fun f => f.number i)).bind (Instant.ofUnix? · 0) := by
  simp only [named?, pieces_write h, readFields?_write h]
  rfl

theorem aligned_shownAs (h : p.Aligned i) : p.shownAs.Aligned i := by
  cases p with
  | quarterly => exact (aligned_quarterly.mp h).2
  | continuous | secondly | minutely | hourly | daily | weekly | monthly | yearly => exact h

end Period

namespace Cell
variable {p : Period}

theorem year_start_plain (c : Cell p) : Field.year.Plain c.start := c.year_start

theorem weekOf_start (c : Cell .weekly) : weekOf c.start.day = c.number :=
  weekly.cellAt_startOf c.number

theorem weekYear_start_plain (c : Cell .weekly) : Field.weekYear.Plain c.start := by
  have hw : c.start.weekYear = yearOf (7 * c.number) := by
    rw [Instant.weekYear, weekOf_start, weekYear]
  have hbounds := cell_bounds_iff_start .weekly |>.mp ⟨c.first_le, c.le_last⟩
  simp only [startOf, weekStart, yearStart_zero, yearStart_10000] at hbounds
  have h0 := yearStart_zero
  have h10000 := yearStart_10000
  have hge := (yearStart_le_iff (y := 0) (d := 7 * c.number)).mp (by omega)
  have hlt : ¬ 10000 ≤ yearOf (7 * c.number) := by
    intro h
    have hy := yearStart_le_iff.mpr h
    omega
  simp only [Field.Plain, hw]
  omega

theorem layout_plain (c : Cell p) : ∀ f ∈ p.layout, f.Plain c.start := by
  intro f hf
  cases f with
  | year => exact c.year_start_plain
  | weekYear =>
    cases p with
    | weekly => exact c.weekYear_start_plain
    | continuous | secondly | minutely | hourly | daily | monthly | quarterly | yearly =>
      simp [layout] at hf
  | month | day | hour | minute | second | week => trivial

/-- The numbers of a cell's canonical text name its first second. -/
theorem secondOf?_start (c : Cell p) :
    p.secondOf? (p.layout.map fun f => f.number c.start) = some c.start.seconds := by
  have haligned := aligned_shownAs c.aligned_start
  have hcounts : ∀ f ∈ p.layout, f.Counts c.start (f.number c.start) :=
    fun f hf => Field.counts_number (c.layout_plain f hf)
  exact (secondOf?_iff.mpr ⟨haligned, hcounts⟩).1

theorem named?_text (c : Cell p) : p.named? c.text = some c.start := by
  rw [text, named?_write c.layout_plain, c.secondOf?_start]
  exact Instant.ofUnix?_eq_some.mpr ⟨rfl, rfl⟩

theorem holding?_start (c : Cell p) : holding? p c.start = some c :=
  ofNumber?_eq_some.mpr (p.cellAt_startOf c.number).symm

/-- Reading the canonical text of a cell gives the cell back. -/
theorem read_text (c : Cell p) : read p c.text = .ok c := by
  simp [read, c.named?_text, c.holding?_start]

/-- A text is read as the cell whose canonical text it is, and no other text is read. -/
theorem read_eq_ok {value : String} {c : Cell p} : read p value = .ok c ↔ value = c.text := by
  constructor
  · intro h
    exact (text_of_read h).symm
  · rintro rfl
    exact c.read_text

theorem comma_not_mem_text (c : Cell p) : ',' ∉ c.text.toList := by
  rw [text, write, String.toList_ofList]
  intro hm
  rcases Text.mem_join hm with h | ⟨t, ht, hc⟩
  · cases h
  · obtain ⟨f, hf, rfl⟩ := List.mem_map.mp ht
    exact Field.not_mem_write (c.layout_plain f hf) (by decide) (by decide) hc

theorem text_ne_empty (c : Cell p) : c.text ≠ "" := by
  intro h
  have hn := c.named?_text
  rw [h] at hn
  cases p <;> cases hn

end Cell

namespace Partition
variable {p : Period} {value : String} {i : Instant}

/-- What a text is read as starts at a boundary in the years of partitions, and is written as this text. -/
theorem read_start_iff :
    (Cell.read p value).map Cell.start = .ok i ↔ p.Aligned i ∧ i.Supported ∧ p.write i = value := by
  constructor
  · intro h
    obtain ⟨c, hc, rfl⟩ := map_eq_ok.mp h
    exact ⟨c.aligned_start, c.year_start, Cell.text_of_read hc⟩
  · rintro ⟨ha, hs, rfl⟩
    obtain ⟨c, rfl⟩ := Cell.exists_start ha hs
    exact map_eq_ok.mpr ⟨c, c.read_text, rfl⟩

theorem read_text (q : Partition) : read q.period q.text = .ok q :=
  map_eq_ok.mpr ⟨q.cell, q.cell.read_text, rfl⟩

theorem text_inj {q r : Partition} (hp : q.period = r.period) (ht : q.text = r.text) : q = r := by
  have hq := q.read_text
  rw [hp, ht, r.read_text] at hq
  exact (Except.ok.inj hq).symm

/-- Canonical texts and the boundaries in the years of partitions correspond one to one: reading gives the
boundary that is written as the text, and every partition comes back from its own. -/
theorem canonical_text_bijective :
    (∀ p value i, (Cell.read p value).map Cell.start = .ok i ↔
      p.Aligned i ∧ i.Supported ∧ p.write i = value) ∧
    (∀ q : Partition, read q.period q.text = .ok q) ∧
    ∀ q r : Partition, q.period = r.period → q.text = r.text → q = r :=
  ⟨fun _ _ _ => read_start_iff, read_text, fun _ _ => text_inj⟩

/-- The week that 2021 starts in is the last one of 2020, which has 53. -/
theorem canonical_text_bijective_of_long_year :
    let monday : Instant := ⟨1609113600, 0, by decide, by decide, by decide⟩
    let week : Partition := ⟨.weekly, 2661, by decide, by decide⟩
    (Cell.read .weekly "2020-W53").map Cell.start = .ok monday ∧
      week.text = "2020-W53" ∧ read .weekly "2020-W53" = .ok week := by
  intro monday week
  obtain ⟨hread, hback, -⟩ := canonical_text_bijective
  have htext : week.text = "2020-W53" := by decide +kernel
  refine ⟨(hread _ _ _).mpr ⟨by decide +kernel, by decide +kernel, by decide +kernel⟩, htext, ?_⟩
  rw [← htext]
  exact hback week

end Partition
end PartitionLedger

import PartitionLedger.Proofs.Boundaries
import PartitionLedger.Proofs.Outcome
import PartitionLedger.Proofs.Views
import PartitionLedger.Timeline.Kept

/-!
Looking up a partition by its start succeeds, and so do the loops that take one start after the other: those
that open and close gaps pass only starts of partitions, and a cursor that has left the years of partitions
looks nothing up any more.
-/
namespace PartitionLedger

namespace Cell
variable {p : Period} {a b c : Cell p}

theorem start_le_iff : a.start ≤ b.start ↔ a ≤ b :=
  (Instant.whole_le_iff rfl).trans p.startOf_le_startOf_iff

theorem start_inj : a.start = b.start ↔ a = b := by
  constructor
  · intro h
    exact ext_number (p.startOf_inj.mp (congrArg Instant.seconds h))
  · exact congrArg start

theorem start_max (a b : Cell p) : (max a b).start = max a.start b.start := by
  change (if a ≤ b then b else a).start = if a.start ≤ b.start then b.start else a.start
  simp only [start_le_iff]
  exact apply_ite start _ _ _

theorem start_min (a b : Cell p) : (min a b).start = min a.start b.start := by
  change (if a ≤ b then a else b).start = if a.start ≤ b.start then a.start else b.start
  simp only [start_le_iff]
  exact apply_ite start _ _ _

end Cell

theorem Partition.holding_start {p : Period} (c : Cell p) : holding p c.start = .ok ⟨p, c⟩ :=
  holding_eq_ok.mpr ⟨rfl, c.aligned_start⟩

namespace Period
variable {p : Period}

theorem startAfter?_start (c : Cell p) : p.startAfter? c.start = .ok (c.next?.map Cell.start) := by
  simp only [startAfter?, Partition.holding_start, ok_bind, Partition.next?]
  cases c.next? <;> rfl

theorem startBefore?_start (c : Cell p) : p.startBefore? c.start = .ok (c.previous?.map Cell.start) := by
  simp only [startBefore?, Partition.holding_start, ok_bind, Partition.previous?]
  cases c.previous? <;> rfl

end Period

namespace CellSet
variable {p : Period} {cells : CellSet p} {a b c : Cell p} {i : Instant}

theorem mem_starts : i ∈ cells.starts ↔ ∃ c ∈ cells, c.start = i := List.mem_map

theorem start_mem_starts : c.start ∈ cells.starts ↔ c ∈ cells := by
  rw [mem_starts]
  constructor
  · rintro ⟨d, hd, he⟩
    exact Cell.start_inj.mp he ▸ hd
  · intro h
    exact ⟨c, h, rfl⟩

theorem starts_insert (cells : CellSet p) (c : Cell p) :
    starts (cells.insert c) = (starts cells).insert c.start := by
  apply OrderedSet.ext_mem
  intro i
  simp only [OrderedSet.mem_insert, mem_starts]
  constructor
  · rintro ⟨d, rfl | hd, rfl⟩
    · exact Or.inl rfl
    · exact Or.inr ⟨d, hd, rfl⟩
  · rintro (rfl | ⟨d, hd, rfl⟩)
    · exact ⟨c, Or.inl rfl, rfl⟩
    · exact ⟨d, Or.inr hd, rfl⟩

theorem starts_erase (cells : CellSet p) (c : Cell p) :
    starts (cells.erase c) = (starts cells).erase c.start := by
  apply OrderedSet.ext_mem
  intro i
  simp only [OrderedSet.mem_erase, mem_starts]
  constructor
  · rintro ⟨d, ⟨hd, hne⟩, rfl⟩
    exact ⟨⟨d, hd, rfl⟩, fun he => hne (Cell.start_inj.mp he)⟩
  · rintro ⟨⟨d, hd, rfl⟩, hne⟩
    exact ⟨d, ⟨hd, fun he => hne (congrArg Cell.start he)⟩, rfl⟩

theorem first?_starts (cells : CellSet p) : (starts cells).first? = cells.first?.map Cell.start :=
  List.head?_map

theorem last?_starts (cells : CellSet p) : (starts cells).last? = cells.last?.map Cell.start :=
  List.getLast?_map

theorem firstFrom?_starts (cells : CellSet p) (c : Cell p) :
    (starts cells).firstFrom? c.start = (cells.firstFrom? c).map Cell.start := by
  simp only [OrderedSet.firstFrom?, starts, List.find?_map]
  congr 2
  funext d
  simp only [Function.comp_apply, Cell.start_le_iff]

theorem starts_insertAll (cells : CellSet p) (cs : List (Cell p)) :
    (cs.map Cell.start).foldl OrderedSet.insert (starts cells) =
      starts (cs.foldl OrderedSet.insert cells) := by
  induction cs generalizing cells with
  | nil => rfl
  | cons c cs ih =>
    simp only [List.map_cons, List.foldl_cons, ← starts_insert]
    exact ih _

theorem mem_insertAll {cs : List (Cell p)} :
    a ∈ cs.foldl OrderedSet.insert cells ↔ a ∈ cells ∨ a ∈ cs := by
  induction cs generalizing cells with
  | nil => simp
  | cons c cs ih =>
    simp only [List.foldl_cons, ih, OrderedSet.mem_insert, List.mem_cons]
    constructor
    · rintro ((rfl | h) | h)
      · exact Or.inr (Or.inl rfl)
      · exact Or.inl h
      · exact Or.inr (Or.inr h)
    · rintro (h | rfl | h)
      · exact Or.inl (Or.inr h)
      · exact Or.inl (Or.inl rfl)
      · exact Or.inr h

end CellSet

namespace Starts
variable {p : Period} {holes : CellSet p} {a b c first latest : Cell p}

/-- The loop looks up the start of each cell before the upper one, and that of the upper one. -/
theorem upto_start (a b : Cell p) : upto p b.start (some a.start) = .ok ((a.upto b).map Cell.start) := by
  generalize hn : (b.number - a.number).toNat = n
  induction n generalizing a with
  | zero =>
    have hnot : ¬ a.start < b.start := by
      rw [Cell.start_lt_iff, Cell.lt_def]
      omega
    rw [upto, Period.startAfter?_start]
    simp [hnot, Cell.upto, hn, Cell.run]
  | succ n ih =>
    have hlt : a < b := by
      rw [Cell.lt_def]
      omega
    obtain ⟨d, hd, hnumber, -⟩ := Cell.next?_of_lt hlt
    have hrest := ih d (by omega)
    have hrun : a.upto b = a :: d.upto b := by
      have hlength : (b.number - d.number).toNat = n := by omega
      simp only [Cell.upto, hn, Cell.run, hd, hlength]
    rw [upto, Period.startAfter?_start]
    simp only [hd, Option.map_some, Cell.start_lt_iff.mpr hlt, if_true, hrest, hrun]
    rfl

theorem punch_start (holes : CellSet p) (a b : Cell p) :
    punch p a.start b.start holes.starts = .ok (CellSet.starts (holes.fillBetween a b)) := by
  have hsame : ∀ d ∈ a.next?, (d.upto b).foldl OrderedSet.insert holes = holes.fillBetween a b := by
    intro d hd
    apply OrderedSet.ext_mem
    intro c
    have hnumber := Cell.next?_eq_some.mp hd
    rw [CellSet.mem_insertAll, CellSet.mem_fillBetween, Cell.mem_upto]
    simp only [Cell.le_def, Cell.lt_def, hnumber, Int.add_one_le_iff]
  simp only [punch, Period.startAfter?_start, ok_bind]
  cases hd : a.next? with
  | none =>
    rw [Option.map_none, upto, CellSet.fillBetween, hd]
    rfl
  | some d =>
    rw [Option.map_some, upto_start, ← hsame d hd, ← CellSet.starts_insertAll]
    rfl

section Collapse
variable {step : Cell p → Option (Cell p)} {look : Instant → Except PartitionError (Option Instant)}
  {σ : Int} {bound d : Cell p} {n : Nat} {kept : CellSet p} {i j : Instant} {found : InstantSet}

theorem collapse_stop (h : look i = .ok (some j)) (hj : ¬ (j ≠ bound.start ∧ j ∈ found)) :
    collapse look bound.start found i = .ok (j, found) := by
  rw [collapse, h, ok_bind]
  exact if_neg hj

theorem collapse_pass (h : look i = .ok (some j)) (hj : j ≠ bound.start ∧ j ∈ found) :
    collapse look bound.start found i = collapse look bound.start (found.erase j) j := by
  conv => lhs; rw [collapse, h, ok_bind]
  exact if_pos hj

/-- Of the holes nothing is forgotten in one step: no cell lies between. -/
theorem collapse_one (hσ : σ = 1 ∨ σ = -1) (hd : d.number = c.number + σ)
    (h : look c.start = .ok (some d.start)) (hstop : ¬ (d.start ≠ bound.start ∧ d.start ∈ kept.starts)) :
    ∃ left : CellSet p, collapse look bound.start kept.starts c.start = .ok (d.start, left.starts) ∧
      ∀ e, e ∈ left ↔ e ∈ kept ∧
        ¬ (0 < σ * (e.number - c.number) ∧ σ * (e.number - c.number) < σ * (d.number - c.number)) := by
  refine ⟨kept, collapse_stop h hstop, ?_⟩
  intro e
  refine ⟨fun he => ⟨he, ?_⟩, And.left⟩
  rcases hσ with rfl | rfl <;> omega

/-- A look-up that leads to where `step` leads collapses the holes that lie between the cell and the one
where stepping inward ends. The distance left is what the induction is on; only the holes ahead decide, and
they are still kept. `σ` is the way the steps go. -/
theorem collapse_start (hlook : ∀ c, look c.start = .ok ((step c).map Cell.start))
    (hσ : σ = 1 ∨ σ = -1) (hstep : ∀ a b, step a = some b ↔ b.number = a.number + σ)
    (h : bound.number = c.number + σ * (n + 1))
    (hkept : ∀ e, 0 < σ * (e.number - c.number) → (e ∈ kept ↔ e ∈ holes)) :
    let stop := Holed.inward holes step c (n + 1)
    ∃ left : CellSet p, collapse look bound.start kept.starts c.start = .ok (stop.start, left.starts) ∧
      ∀ e, e ∈ left ↔ e ∈ kept ∧
        ¬ (0 < σ * (e.number - c.number) ∧ σ * (e.number - c.number) < σ * (stop.number - c.number)) := by
  have hlooked : ∀ c d, step c = some d → look c.start = .ok (some d.start) := by
    intro c d hs
    rw [hlook, hs, Option.map_some]
  induction n generalizing c kept with
  | zero =>
    have hb : bound.number = c.number + σ := by simpa using h
    have hs := (hstep c bound).mpr hb
    rw [Holed.inward_last hs]
    exact collapse_one hσ hb (hlooked c bound hs) fun hne => hne.1 rfl
  | succ n ih =>
    obtain ⟨d, hd⟩ := Cell.exists_toward hσ h
    have hs := (hstep c d).mpr hd
    have hahead : d ∈ kept ↔ d ∈ holes := hkept d (by rcases hσ with rfl | rfl <;> omega)
    by_cases hole : d ∈ holes
    · have hpass : d.start ≠ bound.start ∧ d.start ∈ kept.starts := by
        rw [ne_eq, Cell.start_inj, CellSet.start_mem_starts]
        refine ⟨?_, hahead.mpr hole⟩
        rintro rfl
        rcases hσ with rfl | rfl <;> omega
      have hrest : ∀ e, 0 < σ * (e.number - d.number) → (e ∈ kept.erase d ↔ e ∈ holes) := by
        intro e he
        rw [OrderedSet.mem_erase, hkept e (by rcases hσ with rfl | rfl <;> omega)]
        refine and_iff_left ?_
        rintro rfl
        simp at he
      have hbound : bound.number = d.number + σ * (n + 1) := by rcases hσ with rfl | rfl <;> omega
      obtain ⟨left, hcollapse, hleft⟩ := ih hbound hrest
      obtain ⟨m, hm, -, hn, -⟩ := Holed.inward_spec holes step hσ hstep hbound
      rw [Holed.inward_pass hs hole]
      refine ⟨left, ?_, ?_⟩
      · rw [collapse_pass (hlooked c d hs) hpass, ← CellSet.starts_erase, hcollapse]
      · intro e
        rw [hleft, OrderedSet.mem_erase, and_assoc, hn, hd, ne_eq, Cell.eq_iff_number, hd]
        refine and_congr_right fun _ => ?_
        rcases hσ with rfl | rfl <;> omega
    · have hstop : ¬ (d.start ≠ bound.start ∧ d.start ∈ kept.starts) := by
        rw [CellSet.start_mem_starts, hahead]
        exact fun hne => hole hne.2
      rw [Holed.inward_stop hs hole]
      exact collapse_one hσ hd (hlooked c d hs) hstop

/-- The holes that are left are those that are not `gone`: all but those between the cell and where stepping
inward ends. -/
theorem collapse_filter (hlook : ∀ c, look c.start = .ok ((step c).map Cell.start))
    (hσ : σ = 1 ∨ σ = -1) (hstep : ∀ a b, step a = some b ↔ b.number = a.number + σ)
    (hne : bound ≠ c) (h : bound.number = c.number + σ * c.distance bound)
    {gone : Cell p → Prop} [DecidablePred gone] :
    let stop := Holed.inward holes step c (c.distance bound)
    (∀ e, gone e ↔
      0 < σ * (e.number - c.number) ∧ σ * (e.number - c.number) < σ * (stop.number - c.number)) →
    collapse look bound.start holes.starts c.start =
      .ok (stop.start, CellSet.starts (holes.filter fun hole => ¬ gone hole)) := by
  intro stop hgone
  obtain ⟨n, hn⟩ : ∃ n, c.distance bound = n + 1 := by
    rw [ne_eq, Cell.eq_iff_number] at hne
    simp only [Cell.distance]
    exact ⟨(bound.number - c.number).natAbs - 1, by omega⟩
  have hdistance : bound.number = c.number + σ * (n + 1) := by
    rw [hn] at h
    exact h
  have hkept : ∀ e, 0 < σ * (e.number - c.number) → (e ∈ holes ↔ e ∈ holes) := fun _ _ => Iff.rfl
  obtain ⟨left, hcollapse, hleft⟩ := collapse_start hlook hσ hstep hdistance hkept
  rw [← hn] at hcollapse hleft
  have hsame : left = holes.filter fun hole => ¬ gone hole := by
    apply OrderedSet.ext_mem
    intro e
    rw [hleft, OrderedSet.mem_filter, decide_eq_true_eq, hgone]
  rw [hcollapse, hsame]

/-- Dropping the first partition collapses the holes up to the one that is the first then. -/
theorem collapse_next (holes : CellSet p) (h : first < latest) :
    let stop := Holed.inward holes Cell.next? first (first.distance latest)
    collapse p.startAfter? latest.start holes.starts first.start =
      .ok (stop.start, CellSet.starts (holes.filter fun hole => ¬ (first < hole ∧ hole < stop))) := by
  intro stop
  have hdistance : latest.number = first.number + 1 * first.distance latest := by
    rw [Cell.lt_def] at h
    simp only [Cell.distance]
    omega
  refine collapse_filter Period.startAfter?_start (Or.inl rfl) (fun _ _ => Cell.next?_eq_some)
    (Std.ne_of_lt h).symm hdistance fun e => ?_
  simp only [Cell.lt_def, stop]
  omega

/-- Dropping the latest partition collapses the holes down to the one that is the latest then. -/
theorem collapse_previous (holes : CellSet p) (h : first < latest) :
    let stop := Holed.inward holes Cell.previous? latest (latest.distance first)
    collapse p.startBefore? first.start holes.starts latest.start =
      .ok (stop.start, CellSet.starts (holes.filter fun hole => ¬ (stop < hole ∧ hole < latest))) := by
  intro stop
  have hdistance : first.number = latest.number + -1 * latest.distance first := by
    rw [Cell.lt_def] at h
    simp only [Cell.distance]
    omega
  have hback : ∀ a b : Cell p, a.previous? = some b ↔ b.number = a.number + -1 := by
    intro a b
    rw [Cell.previous?_eq_some]
    omega
  refine collapse_filter Period.startBefore?_start (Or.inr rfl) hback (Std.ne_of_lt h) hdistance
    fun e => ?_
  simp only [Cell.lt_def, stop]
  omega

end Collapse

end Starts
end PartitionLedger

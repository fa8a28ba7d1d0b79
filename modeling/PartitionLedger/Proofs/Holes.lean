import PartitionLedger.Timeline.Holed

/-!
A consistent timeline with holes is as good as a list of its partitions: adding and dropping are
inserting and removing, they keep it consistent, and they say truly whether they changed it.
-/
namespace PartitionLedger

namespace Cell
variable {p : Period} {a b : Cell p}

theorem eq_iff_number : a = b ↔ a.number = b.number := ⟨congrArg number, ext_number⟩

theorem lt_of_between {c : Cell p} (hlow : a ≤ c) (hhigh : c ≤ b) (hne : a ≠ b) : a < b := by
  rw [ne_eq, eq_iff_number] at hne
  rw [le_def] at hlow hhigh
  rw [lt_def]
  omega

/-- What lies on the way to a cell is a cell. -/
theorem exists_toward {σ : Int} {n : Nat} (hσ : σ = 1 ∨ σ = -1) (h : b.number = a.number + σ * (n + 1)) :
    ∃ c : Cell p, c.number = a.number + σ := by
  have ha := a.first_le
  have ha' := a.le_last
  have hb := b.first_le
  have hb' := b.le_last
  refine ⟨⟨a.number + σ, ?_, ?_⟩, rfl⟩
  · rcases hσ with rfl | rfl <;> omega
  · rcases hσ with rfl | rfl <;> omega

end Cell

namespace Holed
variable {p : Period} {t : Holed p} {first latest c d : Cell p} {holes : CellSet p}

theorem has_iff :
    (⟨some ⟨first, latest⟩, holes⟩ : Holed p).has c ↔ (first ≤ c ∧ c ≤ latest) ∧ c ∉ holes := by
  simp [has]

theorem has_eq_false_iff :
    (⟨some ⟨first, latest⟩, holes⟩ : Holed p).has c = false ↔
      c < first ∨ latest < c ∨ c ∈ holes := by
  rw [Bool.eq_false_iff, ne_eq, has_iff, Cell.le_def, Cell.le_def, Cell.lt_def, Cell.lt_def]
  constructor
  · grind
  · grind

theorem has_of_none : (⟨none, holes⟩ : Holed p).has c = false := rfl

section Inward
variable {step : Cell p → Option (Cell p)}

theorem inward_last (h : step c = some d) : inward holes step c 1 = d := by
  simp only [inward, h, ite_self]

theorem inward_pass (h : step c = some d) (hole : d ∈ holes) (n : Nat) :
    inward holes step c (n + 1) = inward holes step d n := by
  conv => lhs; rw [inward, h]
  exact if_pos hole

theorem inward_stop (h : step c = some d) (hole : d ∉ holes) (n : Nat) :
    inward holes step c (n + 1) = d := by
  rw [inward, h]
  exact if_neg hole

end Inward

/-- Stepping inward ends at the first cell that is no hole, or else at the other end. The distance
left is what the induction is on; `σ` is the way the steps go. -/
theorem inward_spec (holes : CellSet p) (step : Cell p → Option (Cell p)) {σ : Int}
    (hσ : σ = 1 ∨ σ = -1) (hstep : ∀ a b, step a = some b ↔ b.number = a.number + σ) {bound : Cell p} {n : Nat}
    (h : bound.number = c.number + σ * (n + 1)) :
    ∃ m : Nat, 1 ≤ m ∧ m ≤ n + 1 ∧ (inward holes step c (n + 1)).number = c.number + σ * m ∧
      (∀ (d : Cell p) (k : Nat), 0 < k → k < m → d.number = c.number + σ * k → d ∈ holes) ∧
      (inward holes step c (n + 1) ∉ holes ∨ inward holes step c (n + 1) = bound) := by
  induction n generalizing c with
  | zero =>
    have hd : step c = some bound := (hstep c bound).mpr (by rw [h]; simp)
    have hi : inward holes step c 1 = bound := inward_last hd
    refine ⟨1, by omega, by omega, ?_, ?_, Or.inr hi⟩
    · simpa [hi] using h
    · intro d k hk hk'
      omega
  | succ n ih =>
    obtain ⟨d, hd⟩ := Cell.exists_toward hσ h
    have hs := (hstep c d).mpr hd
    by_cases hole : d ∈ holes
    · obtain ⟨m, hm, hm', hn, hbetween, hstop⟩ := ih (c := d) (by rcases hσ with rfl | rfl <;> omega)
      rw [inward_pass hs hole]
      refine ⟨m + 1, by omega, by omega, ?_, ?_, hstop⟩
      · rcases hσ with rfl | rfl <;> omega
      · intro e k hk hk' he
        by_cases hone : k = 1
        · have hed : e = d := Cell.ext_number (by rw [he, hd, hone]; simp)
          exact hed ▸ hole
        · exact hbetween e (k - 1) (by omega) (by omega) (by rcases hσ with rfl | rfl <;> omega)
    · have hi : inward holes step c (n + 1 + 1) = d := inward_stop hs hole (n + 1)
      refine ⟨1, by omega, by omega, by rw [hi, hd]; simp, ?_, Or.inl (by rwa [hi])⟩
      intro e k hk hk'
      omega

theorem inward_next (holes : CellSet p) (h : first < latest) :
    let stop := inward holes Cell.next? first (first.distance latest)
    first < stop ∧ stop ≤ latest ∧ (∀ d, first < d → d < stop → d ∈ holes) ∧
      (stop ∉ holes ∨ stop = latest) := by
  rw [Cell.lt_def] at h
  obtain ⟨n, hn⟩ : ∃ n, first.distance latest = n + 1 := by
    simp only [Cell.distance]
    exact ⟨(latest.number - first.number).natAbs - 1, by omega⟩
  have hdist : latest.number = first.number + 1 * (n + 1) := by
    simp only [Cell.distance] at hn
    omega
  obtain ⟨m, hm, hm', hs, hbetween, hstop⟩ :=
    inward_spec holes Cell.next? (Or.inl rfl) (fun _ _ => Cell.next?_eq_some) hdist
  simp only [hn, Cell.lt_def, Cell.le_def]
  refine ⟨by omega, by omega, ?_, hstop⟩
  intro d hd hd'
  exact hbetween d (d.number - first.number).toNat (by omega) (by omega) (by omega)

theorem inward_previous (holes : CellSet p) (h : first < latest) :
    let stop := inward holes Cell.previous? latest (latest.distance first)
    first ≤ stop ∧ stop < latest ∧ (∀ d, stop < d → d < latest → d ∈ holes) ∧
      (stop ∉ holes ∨ stop = first) := by
  rw [Cell.lt_def] at h
  obtain ⟨n, hn⟩ : ∃ n, latest.distance first = n + 1 := by
    simp only [Cell.distance]
    exact ⟨(first.number - latest.number).natAbs - 1, by omega⟩
  have hdist : first.number = latest.number + -1 * (n + 1) := by
    simp only [Cell.distance] at hn
    omega
  have hback : ∀ a b : Cell p, a.previous? = some b ↔ b.number = a.number + -1 := by
    intro a b
    rw [Cell.previous?_eq_some]
    omega
  obtain ⟨m, hm, hm', hs, hbetween, hstop⟩ :=
    inward_spec holes Cell.previous? (Or.inr rfl) hback hdist
  simp only [hn, Cell.lt_def, Cell.le_def]
  refine ⟨by omega, by omega, ?_, hstop⟩
  intro d hd hd'
  exact hbetween d (latest.number - d.number).toNat (by omega) (by omega) (by omega)

theorem consistent_iff :
    (⟨some ⟨first, latest⟩, holes⟩ : Holed p).Consistent ↔
      first ≤ latest ∧ ∀ hole ∈ holes, first < hole ∧ hole < latest := Iff.rfl

theorem consistent_empty : (empty : Holed p).Consistent := fun _ h => OrderedSet.not_mem_empty h

theorem consistent_single : (⟨some ⟨c, c⟩, ∅⟩ : Holed p).Consistent :=
  ⟨Int.le_refl _, fun _ h => absurd h OrderedSet.not_mem_empty⟩

theorem has_single : (⟨some ⟨c, c⟩, ∅⟩ : Holed p).has d ↔ d = c := by
  have he : d ∉ (∅ : CellSet p) := OrderedSet.not_mem_empty
  simp only [has_iff, Cell.eq_iff_number, Cell.le_def]
  grind

section Add
variable (h : (⟨some ⟨first, latest⟩, holes⟩ : Holed p).Consistent)
include h

theorem below_spec (hc : c < first) :
    (⟨some ⟨c, latest⟩, holes.fillBetween c first⟩ : Holed p).Consistent ∧
      ∀ d, (⟨some ⟨c, latest⟩, holes.fillBetween c first⟩ : Holed p).has d ↔
        (⟨some ⟨first, latest⟩, holes⟩ : Holed p).has d ∨ d = c := by
  rw [consistent_iff] at h ⊢
  simp only [has_iff, CellSet.mem_fillBetween, Cell.eq_iff_number, Cell.le_def, Cell.lt_def] at *
  constructor
  · grind
  · grind

theorem above_spec (hc : latest < c) :
    (⟨some ⟨first, c⟩, holes.fillBetween latest c⟩ : Holed p).Consistent ∧
      ∀ d, (⟨some ⟨first, c⟩, holes.fillBetween latest c⟩ : Holed p).has d ↔
        (⟨some ⟨first, latest⟩, holes⟩ : Holed p).has d ∨ d = c := by
  rw [consistent_iff] at h ⊢
  simp only [has_iff, CellSet.mem_fillBetween, Cell.eq_iff_number, Cell.le_def, Cell.lt_def] at *
  constructor
  · grind
  · grind

theorem erase_spec (hc : c ∈ holes) :
    (⟨some ⟨first, latest⟩, holes.erase c⟩ : Holed p).Consistent ∧
      ∀ d, (⟨some ⟨first, latest⟩, holes.erase c⟩ : Holed p).has d ↔
        (⟨some ⟨first, latest⟩, holes⟩ : Holed p).has d ∨ d = c := by
  rw [consistent_iff] at h ⊢
  simp only [has_iff, OrderedSet.mem_erase, Cell.le_def, Cell.lt_def] at *
  constructor
  · grind
  · grind

end Add

/-- A partition that is added exists from then on, and those that existed do so still. -/
theorem add_spec (h : t.Consistent) (c : Cell p) :
    (t.add c).2 = !t.has c ∧ (t.add c).1.Consistent ∧
      ∀ d, (t.add c).1.has d ↔ t.has d ∨ d = c := by
  obtain ⟨ends, holes⟩ := t
  cases ends with
  | none =>
    refine ⟨rfl, consistent_single, ?_⟩
    intro d
    simp [add, has_of_none, has_single]
  | some ends =>
    obtain ⟨first, latest⟩ := ends
    by_cases hlow : c < first
    · simp only [add, if_pos hlow, has_eq_false_iff.mpr (Or.inl hlow)]
      exact ⟨rfl, below_spec h hlow⟩
    · by_cases hhigh : latest < c
      · simp only [add, if_neg hlow, if_pos hhigh, has_eq_false_iff.mpr (Or.inr (Or.inl hhigh))]
        exact ⟨rfl, above_spec h hhigh⟩
      · by_cases hole : c ∈ holes
        · simp only [add, if_neg hlow, if_neg hhigh, if_pos hole,
            has_eq_false_iff.mpr (Or.inr (Or.inr hole))]
          exact ⟨rfl, erase_spec h hole⟩
        · have hhas : (⟨some ⟨first, latest⟩, holes⟩ : Holed p).has c = true := by
            apply eq_true_of_ne_false
            rw [has_eq_false_iff]
            rintro (hc | hc | hc)
            · exact hlow hc
            · exact hhigh hc
            · exact hole hc
          simp only [add, if_neg hlow, if_neg hhigh, if_neg hole, hhas]
          refine ⟨rfl, h, ?_⟩
          intro d
          constructor
          · exact Or.inl
          · rintro (hd | rfl)
            · exact hd
            · exact hhas

section Drop
variable (h : (⟨some ⟨first, latest⟩, holes⟩ : Holed p).Consistent)
include h

/-- The holes next to a dropped first partition are forgotten, and none of the others. -/
theorem drop_first_spec {stop : Cell p} (hlow : first < stop) (hhigh : stop ≤ latest)
    (hbetween : ∀ d, first < d → d < stop → d ∈ holes) (hstop : stop ∉ holes ∨ stop = latest) :
    let u : Holed p :=
      ⟨some ⟨stop, latest⟩, holes.filter fun hole => ¬ (first < hole ∧ hole < stop)⟩
    u.Consistent ∧
      ∀ d, u.has d ↔ (⟨some ⟨first, latest⟩, holes⟩ : Holed p).has d ∧ d ≠ first := by
  rw [consistent_iff] at h
  have hne : ∀ hole ∈ holes, hole.number = stop.number → stop = latest := by
    intro hole hmem hn
    cases Cell.ext_number hn
    exact hstop.resolve_left (not_not_intro hmem)
  simp only [consistent_iff, has_iff, OrderedSet.mem_filter, decide_eq_true_eq, ne_eq,
    Cell.eq_iff_number, Cell.le_def, Cell.lt_def] at *
  constructor
  · grind
  · grind

theorem drop_latest_spec {stop : Cell p} (hlow : first ≤ stop) (hhigh : stop < latest)
    (hbetween : ∀ d, stop < d → d < latest → d ∈ holes) (hstop : stop ∉ holes ∨ stop = first) :
    let u : Holed p :=
      ⟨some ⟨first, stop⟩, holes.filter fun hole => ¬ (stop < hole ∧ hole < latest)⟩
    u.Consistent ∧
      ∀ d, u.has d ↔ (⟨some ⟨first, latest⟩, holes⟩ : Holed p).has d ∧ d ≠ latest := by
  rw [consistent_iff] at h
  have hne : ∀ hole ∈ holes, hole.number = stop.number → stop = first := by
    intro hole hmem hn
    cases Cell.ext_number hn
    exact hstop.resolve_left (not_not_intro hmem)
  simp only [consistent_iff, has_iff, OrderedSet.mem_filter, decide_eq_true_eq, ne_eq,
    Cell.eq_iff_number, Cell.le_def, Cell.lt_def] at *
  constructor
  · grind
  · grind

theorem insert_spec (hlow : first < c) (hhigh : c < latest) :
    (⟨some ⟨first, latest⟩, holes.insert c⟩ : Holed p).Consistent ∧
      ∀ d, (⟨some ⟨first, latest⟩, holes.insert c⟩ : Holed p).has d ↔
        (⟨some ⟨first, latest⟩, holes⟩ : Holed p).has d ∧ d ≠ c := by
  rw [consistent_iff] at h ⊢
  simp only [has_iff, OrderedSet.mem_insert, Cell.le_def, Cell.lt_def] at *
  constructor
  · grind
  · grind

end Drop

/-- What does not exist cannot be dropped. -/
theorem drop_absent_spec (hc : t.has c = false) :
    ∀ d, t.has d ↔ t.has d ∧ d ≠ c := by
  intro d
  constructor
  · intro hd
    refine ⟨hd, ?_⟩
    rintro rfl
    rw [hc] at hd
    cases hd
  · exact And.left

/-- Nothing is left when the only partition is dropped. -/
theorem drop_only_spec (hc : (⟨some ⟨first, first⟩, holes⟩ : Holed p).has c) :
    ∀ d, (empty : Holed p).has d ↔ (⟨some ⟨first, first⟩, holes⟩ : Holed p).has d ∧ d ≠ c := by
  intro d
  simp only [has_iff, Cell.le_def] at hc
  simp only [empty, has_of_none, has_iff, Cell.eq_iff_number, Cell.le_def, ne_eq]
  grind

/-- A partition that is dropped exists no longer, and all the others do so still. -/
theorem drop_spec (h : t.Consistent) (c : Cell p) :
    (t.drop c).2 = t.has c ∧ (t.drop c).1.Consistent ∧
      ∀ d, (t.drop c).1.has d ↔ t.has d ∧ d ≠ c := by
  obtain ⟨ends, holes⟩ := t
  cases ends with
  | none => exact ⟨rfl, h, fun d => by simp [drop, has_of_none]⟩
  | some ends =>
    obtain ⟨first, latest⟩ := ends
    by_cases hout : c < first ∨ latest < c ∨ c ∈ holes
    · have hnot := has_eq_false_iff.mpr hout
      simp only [drop, if_pos hout, hnot]
      exact ⟨trivial, h, drop_absent_spec hnot⟩
    · have hhas : (⟨some ⟨first, latest⟩, holes⟩ : Holed p).has c = true :=
        eq_true_of_ne_false (mt has_eq_false_iff.mp hout)
      obtain ⟨⟨hlow, hhigh⟩, -⟩ := has_iff.mp hhas
      by_cases hsingle : first = latest
      · simp only [drop, if_neg hout, if_pos hsingle, hhas]
        subst hsingle
        exact ⟨trivial, consistent_empty, drop_only_spec hhas⟩
      · have hlt : first < latest := Cell.lt_of_between hlow hhigh hsingle
        by_cases hfirst : c = first
        · subst hfirst
          obtain ⟨hlow, hhigh, hbetween, hstop⟩ := inward_next holes hlt
          simp only [drop, if_neg hout, if_neg hsingle, if_pos, hhas]
          exact ⟨trivial, drop_first_spec h hlow hhigh hbetween hstop⟩
        · by_cases hlatest : c = latest
          · subst hlatest
            obtain ⟨hlow, hhigh, hbetween, hstop⟩ := inward_previous holes hlt
            simp only [drop, if_neg hout, if_neg hsingle, if_neg hfirst, if_pos, hhas]
            exact ⟨trivial, drop_latest_spec h hlow hhigh hbetween hstop⟩
          · simp only [drop, if_neg hout, if_neg hsingle, if_neg hfirst, if_neg hlatest, hhas]
            rw [Cell.eq_iff_number] at hfirst hlatest
            rw [Cell.le_def] at hlow hhigh
            refine ⟨trivial, insert_spec h ?_ ?_⟩
            · rw [Cell.lt_def]
              omega
            · rw [Cell.lt_def]
              omega

end Holed
end PartitionLedger

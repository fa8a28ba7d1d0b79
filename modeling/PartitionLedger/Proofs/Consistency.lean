import PartitionLedger.Proofs.Existing

/-!
A consistent timeline shows its ends in order and its holes strictly between them. No sequence of
changes makes it contradict itself, whichever of them are refused: only a load can, and then it says so.
-/
namespace PartitionLedger

namespace Timeline
variable {t : Timeline} {q : Partition} {bag : Bag} {es : List Edit}

/-- A timeline whose ends are in order and whose holes lie strictly between them. If it is empty, it has
neither. -/
structure Orderly (t : Timeline) : Prop where
  ends : t.first? = none ∧ t.latest? = none ∨ ∃ first ∈ t.first?, ∃ latest ∈ t.latest?, first ≤ latest
  holes : ∀ hole ∈ t.holes, ∃ first ∈ t.first?, ∃ latest ∈ t.latest?, first < hole ∧ hole < latest
  aligned : ∀ q, q ∈ t.first? ∨ q ∈ t.latest? ∨ q ∈ t.holes →
    q.period = t.key.period ∧ t.key.period.Aligned q.start

/-- Whatever a timeline shows as an end or a hole is one of its own cells. -/
theorem exists_cell_of_shown (h : q ∈ t.first? ∨ q ∈ t.latest? ∨ q ∈ t.holes) :
    ∃ c, q = t.partitionOf c := by
  rcases h with h | h | h
  · obtain ⟨c, -, rfl⟩ := Option.map_eq_some_iff.mp h
    exact ⟨c, rfl⟩
  · obtain ⟨c, -, rfl⟩ := Option.map_eq_some_iff.mp h
    exact ⟨c, rfl⟩
  · simp only [holes] at h
    split at h
    · obtain ⟨c, -, rfl⟩ := List.mem_map.mp h
      exact ⟨c, rfl⟩
    · cases h

theorem aligned_of_shown (h : q ∈ t.first? ∨ q ∈ t.latest? ∨ q ∈ t.holes) :
    q.period = t.key.period ∧ t.key.period.Aligned q.start := by
  obtain ⟨c, rfl⟩ := exists_cell_of_shown h
  exact ⟨rfl, c.aligned_start⟩

theorem ends_of_consistent (h : t.Consistent) :
    t.first? = none ∧ t.latest? = none ∨
      ∃ first ∈ t.first?, ∃ latest ∈ t.latest?, first ≤ latest := by
  cases hf : t.contents.first? with
  | none =>
    have hl := Contents.latest?_eq_none_iff.mpr hf
    exact Or.inl ⟨congrArg (Option.map _) hf, congrArg (Option.map _) hl⟩
  | some first =>
    obtain ⟨latest, hl⟩ : ∃ latest, t.contents.latest? = some latest := by
      apply Option.ne_none_iff_exists'.mp
      simp [Contents.latest?_eq_none_iff, hf]
    have hle : first ≤ latest :=
      (Contents.first?_eq_some h hf).2 latest (Contents.latest?_eq_some h hl).1
    exact Or.inr ⟨t.partitionOf first, congrArg (Option.map _) hf,
      t.partitionOf latest, congrArg (Option.map _) hl, partitionOf_le.mpr hle⟩

theorem holes_of_consistent (h : t.Consistent) :
    ∀ hole ∈ t.holes, ∃ first ∈ t.first?, ∃ latest ∈ t.latest?, first < hole ∧ hole < latest := by
  intro hole hmem
  obtain ⟨key, _ | ⟨_ | ⟨first, latest⟩, holes⟩ | _⟩ := t
  · cases hmem
  · obtain ⟨c, hc, rfl⟩ := List.mem_map.mp hmem
    exact absurd hc (h c)
  · obtain ⟨c, hc, rfl⟩ := List.mem_map.mp hmem
    obtain ⟨hlow, hhigh⟩ := h.2 c hc
    exact ⟨_, rfl, _, rfl, partitionOf_lt.mpr hlow, partitionOf_lt.mpr hhigh⟩
  · cases hmem

theorem Orderly.consistent (h : t.Orderly) : t.Consistent := by
  obtain ⟨key, _ | ⟨_ | ⟨first, latest⟩, holes⟩ | ⟨_ | ⟨first, latest⟩⟩⟩ := t
  · trivial
  · intro hole hmem
    obtain ⟨first, hfirst, -⟩ := h.holes _ (List.mem_map_of_mem hmem)
    cases hfirst
  · obtain ⟨hnone, -⟩ | ⟨_, ⟨⟩, _, ⟨⟩, hle⟩ := h.ends
    · cases hnone
    · refine ⟨partitionOf_le.mp hle, ?_⟩
      intro hole hmem
      obtain ⟨_, ⟨⟩, _, ⟨⟩, hlow, hhigh⟩ := h.holes _ (List.mem_map_of_mem hmem)
      exact ⟨partitionOf_lt.mp hlow, partitionOf_lt.mp hhigh⟩
  · trivial
  · obtain ⟨hnone, -⟩ | ⟨_, ⟨⟩, _, ⟨⟩, hle⟩ := h.ends
    · cases hnone
    · exact partitionOf_le.mp hle

theorem consistent_iff_orderly : t.Consistent ↔ t.Orderly := by
  constructor
  · intro h
    exact ⟨ends_of_consistent h, holes_of_consistent h, fun q hq => aligned_of_shown hq⟩
  · exact Orderly.consistent

/-- What is loaded is consistent, unless the load says that it is not. A load that fails leaves the
timeline empty. -/
theorem consistent_load (h : (t.load bag).2 ≠ .ok false) : (t.load bag).1.Consistent := by
  cases hdecode : Contents.decode t.key.period bag t.strategy with
  | error e =>
    simp only [load, hdecode]
    exact consistent_empty t.key t.strategy
  | ok contents =>
    simp only [load, hdecode] at h ⊢
    apply Decidable.byContradiction
    intro hnot
    exact h (congrArg Except.ok (decide_eq_false hnot))

theorem consistent_edit (h : t.Consistent) (e : Edit)
    (hload : ∀ bag, e = .load bag → (t.load bag).2 ≠ .ok false) : (t.edit e).1.Consistent := by
  cases e with
  | add q => exact (sound_add q).consistent t h
  | addAll qs => exact (sound_addAll qs).consistent t h
  | addRange range => exact (sound_addRange range).consistent t h
  | drop q => exact (sound_drop q).consistent t h
  | load bag => exact consistent_load (hload bag rfl)

/-- No load in a sequence of changes says that what it has loaded is inconsistent. -/
def LoadsConsistent (t : Timeline) : List Edit → Prop
  | [] => True
  | e :: rest => (∀ bag, e = .load bag → (t.load bag).2 ≠ .ok false) ∧ (t.edit e).1.LoadsConsistent rest

/-- A consistent timeline stays so through any sequence of changes, those that are refused included. -/
theorem consistent_edits (h : t.Consistent) (hloads : t.LoadsConsistent es) :
    (t.edits es).Consistent ∧ (t.edits es).Orderly := by
  rw [← consistent_iff_orderly, and_self]
  induction es generalizing t with
  | nil => exact h
  | cons e rest ih => exact ih (consistent_edit h e hloads.1) hloads.2

/-- Dropping the first day of two forgets the holes up to the other. What was added before a week is
refused counts. -/
theorem consistent_edits_of_collapse :
    let key : Key := ⟨"events", .daily, "dt"⟩
    let stored : Bag := OrderedMap.ofList
      [("first", "1970-01-01"), ("holes", "1970-01-02,1970-01-03"), ("latest", "1970-01-04")]
    let first : Partition := ⟨.daily, 0, by decide, by decide⟩
    let fifth : Partition := ⟨.daily, 4, by decide, by decide⟩
    let sixth : Partition := ⟨.daily, 5, by decide, by decide⟩
    let week : Partition := ⟨.weekly, 0, by decide, by decide⟩
    let t := (empty key .endsAndHoles).edits [.load stored, .drop first, .addAll [sixth, week]]
    t.holes = [fifth] ∧ t.Consistent ∧ t.Orderly := by
  intro key stored first fifth sixth week t
  have hstored : ((empty key .endsAndHoles).load stored).2.toOption = some true := by decide +kernel
  have hloads : (empty key .endsAndHoles).LoadsConsistent
      [.load stored, .drop first, .addAll [sixth, week]] := by
    refine ⟨?_, nofun, nofun, trivial⟩
    rintro bag ⟨⟩ hfalse
    rw [hfalse] at hstored
    cases hstored
  exact ⟨by decide +kernel, consistent_edits (consistent_empty key .endsAndHoles) hloads⟩

end Timeline
end PartitionLedger

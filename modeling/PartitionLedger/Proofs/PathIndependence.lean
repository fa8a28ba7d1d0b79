import PartitionLedger.Proofs.Consistency
import PartitionLedger.Proofs.StoredTimeline

/-!
A consistent timeline with holes is determined by the partitions that exist: its holes are the partitions
between its ends that do not. In which order they were added and dropped leaves no trace in it.
-/
namespace PartitionLedger

namespace Holed
variable {p : Period} {t u : Holed p} {c : Cell p}

theorem ends_eq_of_shown (hf : t.first? = u.first?) (hl : t.latest? = u.latest?) : t.ends = u.ends := by
  rcases t with ⟨_ | ⟨a, b⟩, holes⟩ <;> rcases u with ⟨_ | ⟨a', b'⟩, holes'⟩
  · rfl
  · cases hf
  · cases hf
  · cases hf
    cases hl
    rfl

/-- The holes are the cells strictly between the ends that do not exist. -/
theorem mem_holes_iff (h : t.Consistent) :
    c ∈ t.holes ↔
      (∃ first ∈ t.first?, ∃ latest ∈ t.latest?, first < c ∧ c < latest) ∧ t.has c = false := by
  rcases t with ⟨_ | ⟨first, latest⟩, holes⟩
  · simp only [first?, Option.map_none, Option.not_mem_none, false_and, exists_false, iff_false]
    exact h c
  · obtain ⟨-, hin⟩ := consistent_iff.mp h
    simp only [first?, latest?, Option.map_some, Option.mem_def, Option.some.injEq, exists_eq_left',
      has_eq_false_iff]
    constructor
    · intro hc
      exact ⟨hin c hc, Or.inr (Or.inr hc)⟩
    · rintro ⟨⟨hlow, hhigh⟩, hout | hout | hc⟩
      · exact absurd (Std.lt_trans hlow hout) Std.lt_irrefl
      · exact absurd (Std.lt_trans hhigh hout) Std.lt_irrefl
      · exact hc

theorem eq_of_has (ht : t.Consistent) (hu : u.Consistent) (h : ∀ c, t.has c = u.has c) : t = u := by
  have hf : t.first? = u.first? := Contents.first?_congr (t := .holed t) (u := .holed u) ht hu h
  have hl : t.latest? = u.latest? := Contents.latest?_congr (t := .holed t) (u := .holed u) ht hu h
  have hholes : t.holes = u.holes := by
    apply OrderedSet.ext_mem
    intro c
    simp only [mem_holes_iff ht, mem_holes_iff hu, hf, hl, h]
  have hends := ends_eq_of_shown hf hl
  cases t
  cases u
  cases hends
  cases hholes
  rfl

end Holed

namespace Timeline
variable {t u : Timeline} {q : Partition} {es : List Edit}

theorem exists_holed (h : t.strategy = .endsAndHoles) :
    ∃ key, ∃ held : Holed key.period, t = ⟨key, .holed held⟩ := by
  obtain ⟨key, _ | held | _⟩ := t
  · cases h
  · exact ⟨key, held, rfl⟩
  · cases h

/-- Consistent timelines with holes in which the same partitions exist are one and the same. -/
theorem eq_of_has (ht : t.strategy = .endsAndHoles) (hu : u.strategy = .endsAndHoles)
    (hkey : t.key = u.key) (htc : t.Consistent) (huc : u.Consistent) (h : ∀ q, t.has q = u.has q) :
    t = u := by
  obtain ⟨key, a, rfl⟩ := exists_holed ht
  obtain ⟨_, b, rfl⟩ := exists_holed hu
  cases hkey
  have hab : a = b := by
    apply Holed.eq_of_has htc huc
    intro c
    have hc := h (partitionOf ⟨key, .holed a⟩ c)
    exact (has_partitionOf ⟨key, .holed a⟩ c).symm.trans (hc.trans (has_partitionOf ⟨key, .holed b⟩ c))
  exact hab ▸ rfl

theorem holes_ascending (t : Timeline) : t.holes.Pairwise (· < ·) := by
  simp only [holes]
  split
  · rename_i held _
    exact List.pairwise_map.mpr (held.holes.ascending.imp partitionOf_lt.mpr)
  · exact .nil

/-- The holes a timeline lists are the partitions strictly between its ends that do not exist. -/
theorem mem_holes_iff (ht : t.strategy = .endsAndHoles) (h : t.Consistent) :
    q ∈ t.holes ↔
      (∃ first ∈ t.first?, ∃ latest ∈ t.latest?, first < q ∧ q < latest) ∧ t.has q = false := by
  constructor
  · intro hq
    refine ⟨holes_of_consistent h q hq, ?_⟩
    obtain ⟨key, held, rfl⟩ := exists_holed ht
    obtain ⟨c, hc, rfl⟩ := List.mem_map.mp hq
    rw [has_partitionOf]
    exact ((Holed.mem_holes_iff h).mp hc).2
  · obtain ⟨key, held, rfl⟩ := exists_holed ht
    rintro ⟨⟨first, hfirst, latest, hlatest, hlow, hhigh⟩, hq⟩
    obtain ⟨a, ha, rfl⟩ := Option.map_eq_some_iff.mp hfirst
    obtain ⟨b, hb, rfl⟩ := Option.map_eq_some_iff.mp hlatest
    obtain ⟨c, rfl⟩ := exists_cell (Partition.period_eq_of_le (Partition.le_of_lt hlow)).symm
    rw [has_partitionOf] at hq
    have hc := (Holed.mem_holes_iff h).mpr
      ⟨⟨a, ha, b, hb, partitionOf_lt.mp hlow, partitionOf_lt.mp hhigh⟩, hq⟩
    exact List.mem_map_of_mem hc

theorem loadsConsistent_of_not_loads (h : ∀ e ∈ es, ¬ e.Loads) : t.LoadsConsistent es := by
  induction es generalizing t with
  | nil => trivial
  | cons e rest ih =>
    obtain ⟨he, hrest⟩ := List.forall_mem_cons.mp h
    exact ⟨fun bag hload => absurd ⟨bag, hload⟩ he, ih hrest⟩

/-- Consistent timelines with holes are equal, and are stored as the same, if the same partitions exist in
them; their holes are the partitions between the ends that do not. So any two ways of adding and dropping
that lead to the same partitions lead to the same timeline. -/
theorem determined_by_existing :
    (∀ t u : Timeline, t.strategy = .endsAndHoles → u.strategy = .endsAndHoles → t.key = u.key →
      t.Consistent → u.Consistent → (∀ q, t.has q = u.has q) → t = u ∧ t.encode = u.encode) ∧
    (∀ t : Timeline, t.strategy = .endsAndHoles → t.Consistent →
      t.holes.Pairwise (· < ·) ∧ ∀ q, q ∈ t.holes ↔
        (∃ first ∈ t.first?, ∃ latest ∈ t.latest?, first < q ∧ q < latest) ∧ t.has q = false) ∧
    ∀ (key : Key) (es es' : List Edit), (∀ e ∈ es ++ es', ¬ e.Loads) →
      let t := (empty key .endsAndHoles).edits es
      let u := (empty key .endsAndHoles).edits es'
      (∀ q, t.has q = u.has q) → t = u ∧ t.encode = u.encode := by
  have same : ∀ t u : Timeline, t.strategy = .endsAndHoles → u.strategy = .endsAndHoles →
      t.key = u.key → t.Consistent → u.Consistent → (∀ q, t.has q = u.has q) →
      t = u ∧ t.encode = u.encode := by
    intro t u ht hu hkey htc huc hhas
    have heq := eq_of_has ht hu hkey htc huc hhas
    exact ⟨heq, congrArg encode heq⟩
  refine ⟨same, fun t ht h => ⟨t.holes_ascending, fun q => mem_holes_iff ht h⟩, ?_⟩
  intro key es es' hloads t u
  obtain ⟨hes, hes'⟩ := List.forall_mem_append.mp hloads
  have hempty := consistent_empty key .endsAndHoles
  have htc := (consistent_edits hempty (loadsConsistent_of_not_loads hes)).1
  have huc := (consistent_edits hempty (loadsConsistent_of_not_loads hes')).1
  exact same t u (strategy_edits _ es) (strategy_edits _ es')
    ((key_edits _ es).trans (key_edits _ es').symm) htc huc

/-- Two days are left, once with the day before and a week after them dropped again, once added alone. A
third timeline was loaded. -/
theorem determined_by_existing_of_detour :
    let key : Key := ⟨"events", .daily, "dt"⟩
    let day (n : Int) (h : Period.daily.firstCell ≤ n ∧ n ≤ Period.daily.lastCell) : Partition :=
      ⟨.daily, n, h.1, h.2⟩
    let first := day 3 (by decide)
    let missing := day 4 (by decide)
    let latest := day 5 (by decide)
    let before := day 2 (by decide)
    let after := day 12 (by decide)
    let detour : List Edit :=
      [.add latest, .addAll [before, after, first], .drop before, .drop after, .add first]
    let direct : List Edit := [.addAll [first, latest]]
    let stored : Bag := OrderedMap.ofList
      [("first", "1970-01-04"), ("holes", "1970-01-05"), ("latest", "1970-01-06")]
    let t := (empty key .endsAndHoles).edits detour
    let u := (empty key .endsAndHoles).edits direct
    let loaded := ((empty key .endsAndHoles).load stored).1
    t = u ∧ t.encode = u.encode ∧ loaded = u ∧ missing ∈ u.holes := by
  intro key day first missing latest before after detour direct stored t u loaded
  have hlist : t.toList = u.toList := by decide +kernel
  have hlist' : loaded.toList = u.toList := by decide +kernel
  have hhas : ∀ q, t.has q = u.has q := fun q => by
    rw [Bool.eq_iff_iff, ← mem_toList, ← mem_toList, hlist]
  have hhas' : ∀ q, loaded.has q = u.has q := fun q => by
    rw [Bool.eq_iff_iff, ← mem_toList, ← mem_toList, hlist']
  have hloads : ∀ e ∈ detour ++ direct, ¬ e.Loads := by
    simp [detour, direct, Edit.Loads]
  have hstrategy : u.strategy = .endsAndHoles := strategy_edits _ direct
  have hconsistent : u.Consistent := by decide +kernel
  obtain ⟨hsame, hholes, hpaths⟩ := determined_by_existing
  obtain ⟨heq, hencode⟩ := hpaths key detour direct hloads hhas
  obtain ⟨heq', -⟩ := hsame loaded u (strategy_load _ stored) hstrategy (key_load _ stored)
    (by decide +kernel) hconsistent hhas'
  refine ⟨heq, hencode, heq', ((hholes u hstrategy hconsistent).2 missing).mpr ?_⟩
  exact ⟨⟨first, rfl, latest, rfl, by decide +kernel, by decide +kernel⟩, by decide +kernel⟩

end Timeline
end PartitionLedger

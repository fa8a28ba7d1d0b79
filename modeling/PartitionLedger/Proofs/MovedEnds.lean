import Mathlib.Order.Bounds.Defs
import PartitionLedger.Proofs.PathIndependence
import PartitionLedger.Proofs.TimelineLookups

/-!
An end that is dropped moves to the nearest partition that is no hole, or else to the other end, and only the
holes it has passed are forgotten. That needs no more than ends in order: holes may lie anywhere, as loads of
inconsistent properties leave them, even on the other end.
-/
namespace PartitionLedger

namespace Holed
variable {p : Period} {first latest : Cell p} {holes : CellSet p}

theorem inward_next_isLeast (h : first < latest) :
    IsLeast {c | first < c ∧ (c ∉ holes ∨ c = latest)}
      (inward holes Cell.next? first (first.distance latest)) := by
  obtain ⟨hlow, hhigh, hbetween, hstop⟩ := inward_next holes h
  refine ⟨⟨hlow, hstop⟩, ?_⟩
  rintro c ⟨hc, hkept⟩
  refine Std.not_lt.mp fun hlt => ?_
  rcases hkept with hhole | rfl
  · exact hhole (hbetween c hc hlt)
  · exact Std.lt_irrefl (Std.lt_of_lt_of_le hlt hhigh)

theorem inward_previous_isGreatest (h : first < latest) :
    IsGreatest {c | c < latest ∧ (c ∉ holes ∨ c = first)}
      (inward holes Cell.previous? latest (latest.distance first)) := by
  obtain ⟨hlow, hhigh, hbetween, hstop⟩ := inward_previous holes h
  refine ⟨⟨hhigh, hstop⟩, ?_⟩
  rintro c ⟨hc, hkept⟩
  refine Std.not_lt.mp fun hlt => ?_
  rcases hkept with hhole | rfl
  · exact hhole (hbetween c hlt hc)
  · exact Std.lt_irrefl (Std.lt_of_le_of_lt hlow hlt)

theorem not_out_of_has {c : Cell p} (h : (⟨some ⟨first, latest⟩, holes⟩ : Holed p).has c) :
    ¬ (c < first ∨ latest < c ∨ c ∈ holes) := by
  intro hout
  rw [has_eq_false_iff.mpr hout] at h
  cases h

/-- The first partition is dropped, and its end moves on to the first cell that is no hole or the latest. -/
theorem drop_first (h : first < latest) (hkept : first ∉ holes) :
    ∃ stop, IsLeast {c | first < c ∧ (c ∉ holes ∨ c = latest)} stop ∧
      (⟨some ⟨first, latest⟩, holes⟩ : Holed p).drop first =
        (⟨some ⟨stop, latest⟩, holes.filter fun hole => ¬ (first < hole ∧ hole < stop)⟩, true) := by
  have hin := not_out_of_has (has_iff.mpr ⟨⟨Std.le_refl first, Std.le_of_lt h⟩, hkept⟩)
  refine ⟨_, inward_next_isLeast h, ?_⟩
  simp only [drop, if_neg hin, if_neg (Std.ne_of_lt h), if_pos]

theorem drop_latest (h : first < latest) (hkept : latest ∉ holes) :
    ∃ stop, IsGreatest {c | c < latest ∧ (c ∉ holes ∨ c = first)} stop ∧
      (⟨some ⟨first, latest⟩, holes⟩ : Holed p).drop latest =
        (⟨some ⟨first, stop⟩, holes.filter fun hole => ¬ (stop < hole ∧ hole < latest)⟩, true) := by
  have hin := not_out_of_has (has_iff.mpr ⟨⟨Std.le_of_lt h, Std.le_refl latest⟩, hkept⟩)
  refine ⟨_, inward_previous_isGreatest h, ?_⟩
  simp only [drop, if_neg hin, if_neg (Std.ne_of_lt h), if_neg (Std.ne_of_lt h).symm, if_pos]

end Holed

namespace Timeline
variable {key : Key} {ends ends' : Option (Ends key.period)} {cells : CellSet key.period}
  {a b c stop : Cell key.period} {t : Timeline} {first latest : Partition}

theorem mem_holes_mk : (⟨key.period, c⟩ : Partition) ∈ (mk key (.holed ⟨ends, cells⟩)).holes ↔ c ∈ cells := by
  simp [holes, partitionOf, OrderedSet.mem_def]

theorem holes_filter : (mk key (.holed ⟨ends, cells.filter fun c => ¬ (a < c ∧ c < b)⟩)).holes =
    (mk key (.holed ⟨ends', cells⟩)).holes.filter
      fun hole => ¬ ((⟨key.period, a⟩ : Partition) < hole ∧ hole < ⟨key.period, b⟩) := by
  simp only [holes, OrderedSet.filter, List.filter_map]
  congr 2
  funext c
  simp only [Function.comp_apply, partitionOf, Partition.mk_lt_mk]

/-- A cell is no hole, or is the end, exactly if its partition is. -/
theorem kept_iff : ((⟨key.period, c⟩ : Partition) ∉ (mk key (.holed ⟨ends, cells⟩)).holes ∨
    (⟨key.period, c⟩ : Partition) = ⟨key.period, b⟩) ↔ c ∉ cells ∨ c = b := by
  rw [mem_holes_mk]
  simp

theorem isLeast_partitions (h : IsLeast {c | a < c ∧ (c ∉ cells ∨ c = b)} stop) :
    IsLeast {q | ⟨key.period, a⟩ < q ∧
      (q ∉ (mk key (.holed ⟨ends, cells⟩)).holes ∨ q = ⟨key.period, b⟩)} ⟨key.period, stop⟩ := by
  obtain ⟨⟨hlt, hkept⟩, hleast⟩ := h
  refine ⟨⟨Partition.mk_lt_mk.mpr hlt, kept_iff.mpr hkept⟩, ?_⟩
  rintro ⟨p, c⟩ ⟨hq, hqkept⟩
  obtain rfl : key.period = p := Partition.period_eq_of_le (Partition.le_of_lt hq)
  exact Partition.mk_le_mk.mpr (hleast ⟨Partition.mk_lt_mk.mp hq, kept_iff.mp hqkept⟩)

theorem isGreatest_partitions (h : IsGreatest {c | c < b ∧ (c ∉ cells ∨ c = a)} stop) :
    IsGreatest {q | q < ⟨key.period, b⟩ ∧
      (q ∉ (mk key (.holed ⟨ends, cells⟩)).holes ∨ q = ⟨key.period, a⟩)} ⟨key.period, stop⟩ := by
  obtain ⟨⟨hlt, hkept⟩, hgreatest⟩ := h
  refine ⟨⟨Partition.mk_lt_mk.mpr hlt, kept_iff.mpr hkept⟩, ?_⟩
  rintro ⟨p, c⟩ ⟨hq, hqkept⟩
  obtain rfl : p = key.period := Partition.period_eq_of_le (Partition.le_of_lt hq)
  exact Partition.mk_le_mk.mpr (hgreatest ⟨Partition.mk_lt_mk.mp hq, kept_iff.mp hqkept⟩)

/-- A timeline with holes that has ends is the one of two cells and a set of holes. -/
theorem exists_ends (ht : t.strategy = .endsAndHoles) (hfirst : t.first? = some first)
    (hlatest : t.latest? = some latest) : ∃ key a b cells, t = mk key (.holed ⟨some ⟨a, b⟩, cells⟩) ∧
      first = ⟨key.period, a⟩ ∧ latest = ⟨key.period, b⟩ := by
  obtain ⟨key, ⟨_ | ⟨a, b⟩, cells⟩, rfl⟩ := exists_holed ht
  · cases hfirst
  · cases hfirst
    cases hlatest
    exact ⟨key, a, b, cells, rfl, rfl, rfl⟩

theorem drop_mk {held held' : Holed key.period} {flag : Bool} (h : held.drop c = (held', flag)) :
    (mk key (.holed held)).drop ⟨key.period, c⟩ = (mk key (.holed held'), .ok flag) := by
  have hdrop := drop_partitionOf (mk key (.holed held)) c
  rw [Contents.drop?, h] at hdrop
  exact hdrop

theorem drop_first (ht : t.strategy = .endsAndHoles) (hfirst : t.first? = some first)
    (hlatest : t.latest? = some latest) (h : first < latest) (hkept : first ∉ t.holes) :
    ∃ u stop, t.drop first = (u, .ok true) ∧
      IsLeast {q | first < q ∧ (q ∉ t.holes ∨ q = latest)} stop ∧
      u.first? = some stop ∧ u.latest? = some latest ∧
      u.holes = t.holes.filter fun hole => ¬ (first < hole ∧ hole < stop) := by
  obtain ⟨key, a, b, cells, rfl, rfl, rfl⟩ := exists_ends ht hfirst hlatest
  obtain ⟨stop, hstop, hdrop⟩ := Holed.drop_first (Partition.mk_lt_mk.mp h) (mt mem_holes_mk.mpr hkept)
  exact ⟨_, ⟨key.period, stop⟩, drop_mk hdrop, isLeast_partitions hstop, rfl, rfl, holes_filter⟩

theorem drop_latest (ht : t.strategy = .endsAndHoles) (hfirst : t.first? = some first)
    (hlatest : t.latest? = some latest) (h : first < latest) (hkept : latest ∉ t.holes) :
    ∃ u stop, t.drop latest = (u, .ok true) ∧
      IsGreatest {q | q < latest ∧ (q ∉ t.holes ∨ q = first)} stop ∧
      u.first? = some first ∧ u.latest? = some stop ∧
      u.holes = t.holes.filter fun hole => ¬ (stop < hole ∧ hole < latest) := by
  obtain ⟨key, a, b, cells, rfl, rfl, rfl⟩ := exists_ends ht hfirst hlatest
  obtain ⟨stop, hstop, hdrop⟩ := Holed.drop_latest (Partition.mk_lt_mk.mp h) (mt mem_holes_mk.mpr hkept)
  exact ⟨_, ⟨key.period, stop⟩, drop_mk hdrop, isGreatest_partitions hstop, rfl, rfl, holes_filter⟩

/-- A timeline that keeps starts is changed in any ways, inconsistent loads among them. If it has its ends in
order and one of them, which is no hole, is dropped, the loop over the holes next to it ends, and no look-up
in it fails. The end is then the nearest partition inward that is no hole or is the other end; the other end
stays, and of the holes only those between the old end and the new one are gone. -/
theorem dropped_end_moves_inward (key : Key) (es : List Edit) :
    let t := (empty key .endsAndHoles).edits es
    (Kept.empty key .endsAndHoles).edits es = .ok t.kept ∧
    ∀ first latest, t.first? = some first → t.latest? = some latest → first < latest →
      (first ∉ t.holes → ∃ u stop,
        t.kept.drop first = .ok (u.kept, .ok true) ∧ t.drop first = (u, .ok true) ∧
        IsLeast {q | first < q ∧ (q ∉ t.holes ∨ q = latest)} stop ∧
        u.first? = some stop ∧ u.latest? = some latest ∧
        u.holes = t.holes.filter fun hole => ¬ (first < hole ∧ hole < stop)) ∧
      (latest ∉ t.holes → ∃ u stop,
        t.kept.drop latest = .ok (u.kept, .ok true) ∧ t.drop latest = (u, .ok true) ∧
        IsGreatest {q | q < latest ∧ (q ∉ t.holes ∨ q = first)} stop ∧
        u.first? = some first ∧ u.latest? = some stop ∧
        u.holes = t.holes.filter fun hole => ¬ (stop < hole ∧ hole < latest)) := by
  intro t
  have hstrategy : t.strategy = .endsAndHoles := by rw [strategy_edits, strategy_empty]
  have hkept : (Kept.empty key .endsAndHoles).edits es = .ok t.kept := by
    rw [← kept_empty]
    exact edits_kept (empty key .endsAndHoles) es
  refine ⟨hkept, ?_⟩
  intro first latest hfirst hlatest hlt
  constructor
  · intro hhole
    obtain ⟨u, stop, hdrop, hstop⟩ := drop_first hstrategy hfirst hlatest hlt hhole
    have hloop := t.drop_kept first
    rw [hdrop] at hloop
    exact ⟨u, stop, hloop, hdrop, hstop⟩
  · intro hhole
    obtain ⟨u, stop, hdrop, hstop⟩ := drop_latest hstrategy hfirst hlatest hlt hhole
    have hloop := t.drop_kept latest
    rw [hdrop] at hloop
    exact ⟨u, stop, hloop, hdrop, hstop⟩

/-- All partitions behind the first are loaded as holes, the latest too, and so are one before the first and
one behind the latest. The first is dropped, and its end moves as far as the latest. -/
theorem dropped_end_moves_inward_onto_hole :
    let key : Key := ⟨"events", .daily, "dt"⟩
    let stray : Bag := OrderedMap.ofList [("first", "2024-01-01"),
      ("holes", "2023-12-30,2024-01-02,2024-01-03,2024-01-04,2024-01-09"), ("latest", "2024-01-04")]
    let first : Partition := ⟨.daily, 19723, by decide, by decide⟩
    let latest : Partition := ⟨.daily, 19726, by decide, by decide⟩
    let before : Partition := ⟨.daily, 19721, by decide, by decide⟩
    let behind : Partition := ⟨.daily, 19731, by decide, by decide⟩
    let t := (empty key .endsAndHoles).edits [.load stray]
    ¬ t.Consistent ∧ t.first? = some first ∧ t.latest? = some latest ∧ latest ∈ t.holes ∧
      ∃ u : Timeline, t.kept.drop first = .ok (u.kept, .ok true) ∧ u.first? = some latest ∧
        u.latest? = some latest ∧ u.holes = [before, latest, behind] := by
  intro key stray first latest before behind t
  obtain ⟨-, hends⟩ := dropped_end_moves_inward key [.load stray]
  have hloaded : ¬ t.Consistent ∧ t.first? = some first ∧ t.latest? = some latest ∧ latest ∈ t.holes ∧
      first ∉ t.holes := by decide +kernel
  have hleft : (t.drop first).1.first? = some latest ∧
      (t.drop first).1.holes = [before, latest, behind] := by decide +kernel
  obtain ⟨hstray, hfirst, hlatest, hhole, hkept⟩ := hloaded
  obtain ⟨hdropped, -⟩ := hends first latest hfirst hlatest (by decide)
  obtain ⟨u, stop, hloop, hdrop, -, -, hu, -⟩ := hdropped hkept
  obtain rfl : (t.drop first).1 = u := congrArg Prod.fst hdrop
  exact ⟨hstray, hfirst, hlatest, hhole, _, hloop, hleft.1, hu, hleft.2⟩

end Timeline
end PartitionLedger

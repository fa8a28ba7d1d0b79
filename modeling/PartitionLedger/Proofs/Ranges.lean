import PartitionLedger.Partition.Walk
import PartitionLedger.Proofs.Stepping

/-!
Ranges are what walking over them passes. The walk comes to its end at the upper end of the range, after
as many steps as there are periods between the ends, and what the order says of a range is true of what
the walk passes.
-/
namespace PartitionLedger

namespace Cell
variable {p : Period}

/-- A run of cells, as moves from the first of them. -/
theorem map_some_run {c : Cell p} {n : Nat} (h : c.number + n ≤ p.lastCell + 1) :
    (c.run n).map some = (List.range n).map fun k : Nat => c.offset? k := by
  induction n generalizing c with
  | zero => rfl
  | succ n ih =>
    have hself : c.offset? (0 : Nat) = some c := ofNumber?_eq_some.mpr (by simp)
    rw [List.range_succ_eq_map, List.map_cons, List.map_map, hself, run]
    cases hd : c.next? with
    | none =>
      -- beyond the last cell there is nothing to move to, and nothing was asked for
      have hlast : n = 0 := by
        apply Decidable.byContradiction
        intro hn
        have hfirst := c.first_le
        have hnext : c.next? = some ⟨c.number + 1, by omega, by omega⟩ := next?_eq_some.mpr rfl
        rw [hd] at hnext
        cases hnext
      subst hlast
      rfl
    | some d =>
      have hnumber := next?_eq_some.mp hd
      have hmove : ∀ k : Nat, d.offset? k = c.offset? (k + 1 : Nat) := by
        intro k
        have hsum : d.number + k = c.number + ((k + 1 : Nat) : Int) := by omega
        exact congrArg (ofNumber? p) hsum
      have hrest := ih (c := d) (by omega)
      simp only [hmove] at hrest
      exact congrArg (some c :: ·) hrest

end Cell

namespace Range
variable {q s : Partition} {r : Range}

theorem ofEnds_eq_ok : ofEnds q s = .ok r ↔ r.lowerEnd = q ∧ r.upperEnd = s := by
  obtain ⟨p, lower, upper, ordered⟩ := r
  obtain ⟨pq, c⟩ := q
  constructor
  · intro h
    simp only [ofEnds] at h
    split at h
    · cases h
    · rename_i d hd
      obtain rfl := Partition.cellIn?_eq_some.mp hd
      split at h
      · cases h
        exact ⟨rfl, rfl⟩
      · cases h
  · rintro ⟨hlower, rfl⟩
    cases hlower
    have hcell : Partition.cellIn? p ⟨p, upper⟩ = some upper := Partition.cellIn?_eq_some.mpr rfl
    simp only [ofEnds, upperEnd, hcell, dif_pos ordered]

/-- The ends of a range are of one period, and in order. -/
theorem exists_ofEnds_iff : (∃ r, ofEnds q s = .ok r) ↔ q.period = s.period ∧ q ≤ s := by
  simp only [ofEnds_eq_ok]
  constructor
  · rintro ⟨r, rfl, rfl⟩
    exact ⟨rfl, Partition.mk_le_mk.mpr r.ordered⟩
  · obtain ⟨p, c⟩ := q
    obtain ⟨p', d⟩ := s
    rintro ⟨hp, hle⟩
    cases hp
    exact ⟨⟨p, c, d, Partition.mk_le_mk.mp hle⟩, rfl, rfl⟩

/-- One number of periods leads from the lower end to the upper one, and walking over the range passes
what is reached by fewer. -/
theorem walk_eq_moves (r : Range) :
    ∃ n : Int64, 0 ≤ n ∧ (∀ m : Int64, r.lowerEnd.offset? m.toInt = some r.upperEnd ↔ m = n) ∧
      r.walk.toList.map some = (List.range n.toInt.toNat).map fun k : Nat => r.lowerEnd.offset? k := by
  obtain ⟨p, lower, upper, ordered⟩ := r
  obtain ⟨n, hn, hunique, -, -⟩ :=
    Partition.exists_unique_offset (q := ⟨p, lower⟩) (r := ⟨p, upper⟩) rfl
  have hnumber : upper.number = lower.number + n.toInt := (Partition.offset?_eq_some.mp hn).2
  rw [Cell.le_def] at ordered
  refine ⟨n, Int64.le_iff_toInt_le.mpr ?_, fun m => ⟨hunique m, ?_⟩, ?_⟩
  · simp only [Int64.toInt_zero]
    omega
  · rintro rfl
    exact hn
  · have hcount : (upper.number - lower.number).toNat = n.toInt.toNat := by omega
    have hroom : lower.number + n.toInt.toNat ≤ p.lastCell + 1 := by
      have := upper.le_last
      omega
    have hmoves := congrArg (List.map (Option.map (Partition.mk p))) (Cell.map_some_run hroom)
    simp only [List.map_map] at hmoves
    rw [Walk.toList_walk, toList, Cell.upto, hcount, List.map_map]
    exact hmoves

theorem contains_iff : r.contains q ↔ q ∈ r.walk.toList := by
  obtain ⟨p, lower, upper, ordered⟩ := r
  rw [Walk.toList_walk, toList, List.mem_map, contains, decide_eq_true_iff]
  constructor
  · obtain ⟨p', c⟩ := q
    rintro ⟨hle, hlt⟩
    obtain rfl : p = p' := Partition.period_eq_of_le hle
    exact ⟨c, Cell.mem_upto.mpr ⟨Partition.mk_le_mk.mp hle, Partition.mk_lt_mk.mp hlt⟩, rfl⟩
  · rintro ⟨c, hc, rfl⟩
    obtain ⟨hle, hlt⟩ := Cell.mem_upto.mp hc
    exact ⟨Partition.mk_le_mk.mpr hle, Partition.mk_lt_mk.mpr hlt⟩

theorem isEmpty_iff : r.isEmpty ↔ r.walk.toList = [] := by
  obtain ⟨p, lower, upper, ordered⟩ := r
  rw [Walk.toList_walk, toList, List.map_eq_nil_iff, List.eq_nil_iff_forall_not_mem, isEmpty,
    beq_iff_eq]
  simp only [Cell.mem_upto, not_and, Std.not_lt]
  constructor
  · rintro rfl c hc
    exact hc
  · intro h
    exact Std.le_antisymm ordered (h lower (Std.le_refl lower))

/-- The range of one partition is had unless nothing follows it, and holds that partition alone. -/
theorem singleton?_walk (q : Partition) :
    (singleton? q).map (·.walk.toList) = q.next?.map fun _ => [q] := by
  cases hnext : q.next? with
  | none => simp [singleton?, hnext]
  | some s =>
    obtain ⟨p, c⟩ := q
    obtain ⟨d, hd, rfl⟩ := Option.map_eq_some_iff.mp hnext
    have hnumber : d.number = c.number + 1 := Cell.next?_eq_some.mp hd
    have hle : c ≤ d := by
      rw [Cell.le_def]
      omega
    have hrange : ofEnds ⟨p, c⟩ ⟨p, d⟩ = .ok ⟨p, c, d, hle⟩ := ofEnds_eq_ok.mpr ⟨rfl, rfl⟩
    have hcount : (d.number - c.number).toNat = 1 := by omega
    simp [singleton?, hnext, hrange, Except.toOption, Walk.toList_walk, toList, Cell.upto, hcount,
      Cell.run, hd]

/-- Two partitions bound a range exactly if they are of one period and in order. Walking over it ends and
passes the moves from its lower end that are too short to reach the upper one. The order tells what is
passed, and equal ends that nothing is. A range of one partition is had unless nothing follows it. -/
theorem range_walked_exactly :
    (∀ q s : Partition, (∃ r, ofEnds q s = .ok r) ↔ q.period = s.period ∧ q ≤ s) ∧
    (∀ q s r, ofEnds q s = .ok r ↔ r.lowerEnd = q ∧ r.upperEnd = s) ∧
    (∀ r : Range, ∃ n : Int64, 0 ≤ n ∧
      (∀ m : Int64, r.lowerEnd.offset? m.toInt = some r.upperEnd ↔ m = n) ∧
      r.walk.toList.map some = (List.range n.toInt.toNat).map fun k : Nat => r.lowerEnd.offset? k) ∧
    (∀ (r : Range) (q : Partition), r.contains q ↔ q ∈ r.walk.toList) ∧
    (∀ r : Range, r.isEmpty ↔ r.walk.toList = []) ∧
    ∀ q : Partition, (singleton? q).map (·.walk.toList) = q.next?.map fun _ => [q] :=
  ⟨fun _ _ => exists_ofEnds_iff, fun _ _ _ => ofEnds_eq_ok, walk_eq_moves, fun _ _ => contains_iff,
    fun _ => isEmpty_iff, singleton?_walk⟩

/-- The last month ends a range of the two before it, and has no range of its own. -/
theorem range_walked_exactly_of_last_month :
    let october : Partition := ⟨.monthly, 119997, by decide, by decide⟩
    let november : Partition := ⟨.monthly, 119998, by decide, by decide⟩
    let december : Partition := ⟨.monthly, 119999, by decide, by decide⟩
    singleton? december = none ∧ ∃ r, ofEnds october december = .ok r ∧
      r.walk.toList = [october, november] ∧ r.contains november ∧ ¬ r.contains december := by
  intro october november december
  have horder : october ≤ december := by decide +kernel
  have htwo : october.offset? (2 : Int64).toInt = some december := by decide +kernel
  obtain ⟨hbounds, hends, hmoves, hmember, -, hsingle⟩ := range_walked_exactly
  obtain ⟨r, hr⟩ := (hbounds october december).mpr ⟨rfl, horder⟩
  obtain ⟨hlower, hupper⟩ := (hends october december r).mp hr
  obtain ⟨n, -, hn, hlist⟩ := hmoves r
  rw [hlower, hupper] at hn
  obtain rfl := (hn 2).mp htwo
  rw [hlower] at hlist
  have hwalk : r.walk.toList = [october, november] := by
    apply (List.map_inj_right fun _ _ => Option.some.inj).mp
    rw [hlist]
    decide +kernel
  refine ⟨Option.map_eq_none_iff.mp ((hsingle december).trans (by decide +kernel)), r, hr, hwalk, ?_, ?_⟩
  · rw [hmember, hwalk]
    simp
  · rw [hmember, hwalk]
    decide +kernel

end Range
end PartitionLedger

import PartitionLedger.Period.Words
import PartitionLedger.Proofs.Boundaries

/-!
Moving a partition by a number of periods is taking as many single steps. Where a step leads out of the
years of partitions the move leads nowhere, and so it does where the number is too large for the words
it is computed in.
-/
namespace PartitionLedger

/-- The cells that partitions can be are fewer than 10 ^ 14. -/
theorem Cell.number_sub_lt {p : Period} (c d : Cell p) : d.number - c.number < 100000000000000 := by
  have hfirst := c.start_bounds.1
  have hend := d.start_bounds.2
  rw [Instant.first_day] at hfirst
  rw [Instant.end_day] at hend
  rcases Int.le_total d.number c.number with h | h
  · omega
  · have hle := p.le_startOf_sub h
    omega

namespace Partition
variable {q r : Partition} {m n : Int}

theorem offset?_eq_some :
    q.offset? n = some r ↔ r.period = q.period ∧ r.cell.number = q.cell.number + n := by
  obtain ⟨p, c⟩ := q
  obtain ⟨p', d⟩ := r
  simp only [offset?, Option.map_eq_some_iff, Cell.offset?, Cell.ofNumber?_eq_some]
  constructor
  · rintro ⟨e, he, hr⟩
    cases hr
    exact ⟨rfl, he⟩
  · rintro ⟨rfl, hd⟩
    exact ⟨d, hd, rfl⟩

/-- Two moves in one direction are one move: what lies between two partitions is a partition. -/
theorem offset?_add (h : 0 ≤ m ∧ 0 ≤ n ∨ m ≤ 0 ∧ n ≤ 0) :
    q.offset? (m + n) = (q.offset? m).bind (·.offset? n) := by
  apply Option.ext
  intro r
  simp only [Option.bind_eq_some_iff, offset?_eq_some]
  constructor
  · obtain ⟨p, c⟩ := q
    obtain ⟨p', d⟩ := r
    rintro ⟨hp, hd⟩
    cases hp
    have hc := c.first_le
    have hc' := c.le_last
    have hfirst := d.first_le
    have hlast := d.le_last
    simp only at hd
    exact ⟨⟨p, c.number + m, by omega, by omega⟩, ⟨rfl, rfl⟩, rfl, by simp only; omega⟩
  · rintro ⟨s, ⟨hs, hm⟩, hr, hn⟩
    exact ⟨hr.trans hs, by omega⟩

/-- The partition after a number of steps, none as soon as one of them leads nowhere. -/
def steps (step : Partition → Option Partition) : Nat → Partition → Option Partition
  | 0, q => some q
  | n + 1, q => (step q).bind (steps step n)

/-- Steps to the next partition, or to the previous one, add up to one move. -/
theorem steps_eq_offset? {direction : Int} (hd : direction = 1 ∨ direction = -1) (n : Nat)
    (q : Partition) : steps (·.offset? direction) n q = q.offset? (direction * n) := by
  induction n generalizing q with
  | zero => exact (offset?_eq_some.mpr ⟨rfl, by simp⟩).symm
  | succ n ih =>
    have hsum : direction * ((n + 1 : Nat) : Int) = direction + direction * n := by
      rcases hd with rfl | rfl <;> omega
    have hsame : 0 ≤ direction ∧ 0 ≤ direction * n ∨ direction ≤ 0 ∧ direction * n ≤ 0 := by
      rcases hd with rfl | rfl <;> omega
    rw [hsum, offset?_add hsame]
    exact congrArg (Option.bind _) (funext ih)

theorem offset?_eq_steps (q : Partition) (n : Int) :
    q.offset? n = if 0 ≤ n then steps next? n.natAbs q else steps previous? n.natAbs q := by
  split
  · have hn : n = 1 * (n.natAbs : Int) := by omega
    exact (congrArg q.offset? hn).trans (steps_eq_offset? (Or.inl rfl) _ q).symm
  · have hn : n = -1 * (n.natAbs : Int) := by omega
    exact (congrArg q.offset? hn).trans (steps_eq_offset? (Or.inr rfl) _ q).symm

theorem map_start_offset? (q : Partition) (n : Int64) :
    (q.offset? n.toInt).map start = (q.period.checkedOffset q.start n).filter (·.Supported) := by
  rw [offset?, Option.map_map, Period.checkedOffset_eq]
  exact q.cell.map_start_offset? n.toInt

theorem aligned_of_offset? (h : q.offset? n = some r) : r.period = q.period ∧ r.period.Aligned r.start :=
  ⟨(offset?_eq_some.mp h).1, r.cell.aligned_start⟩

/-- Two partitions of one period are as far apart as one number of periods says. -/
theorem exists_unique_offset (hp : q.period = r.period) :
    ∃ n : Int64, q.offset? n.toInt = some r ∧ (∀ m : Int64, q.offset? m.toInt = some r → m = n) ∧
      (0 < n ↔ q < r) ∧ r.offset? (-n).toInt = some q := by
  obtain ⟨p, c⟩ := q
  obtain ⟨_, d⟩ := r
  cases hp
  have hlow := c.number_sub_lt d
  have hhigh := d.number_sub_lt c
  have hn : (Int64.ofInt (d.number - c.number)).toInt = d.number - c.number :=
    Int64.toInt_ofInt_of_le (by omega) (by omega)
  refine ⟨Int64.ofInt (d.number - c.number), ?_, ?_, ?_, ?_⟩
  · exact offset?_eq_some.mpr ⟨rfl, by simp only [hn]; omega⟩
  · intro m hm
    have hnumber := (offset?_eq_some.mp hm).2
    exact Int64.toInt_inj.mp (by simp only at hnumber; omega)
  · simp only [Int64.lt_iff_toInt_lt, hn, lt_iff_number, Int64.toInt_zero]
    omega
  · refine offset?_eq_some.mpr ⟨rfl, ?_⟩
    simp only [Int64.toInt_neg, hn]
    rw [Int.bmod_eq_of_le (by omega) (by omega)]
    omega

/-- Moving a partition by any number of periods that is a word is taking as many single steps. It starts
where the words say, if they lead to the years of partitions. One number leads from a partition to
another of its period, and back with the sign changed. -/
theorem jump_eq_steps :
    (∀ (q : Partition) (n : Int64),
      q.offset? n.toInt = (if 0 ≤ n then steps next? n.toInt.natAbs q
        else steps previous? n.toInt.natAbs q) ∧
      (q.offset? n.toInt).map start = (q.period.checkedOffset q.start n).filter (·.Supported) ∧
      ∀ r, q.offset? n.toInt = some r → r.period = q.period ∧ r.period.Aligned r.start) ∧
    ∀ q r : Partition, q.period = r.period →
      ∃ n : Int64, q.offset? n.toInt = some r ∧ (∀ m : Int64, q.offset? m.toInt = some r → m = n) ∧
        (0 < n ↔ q < r) ∧ r.offset? (-n).toInt = some q := by
  refine ⟨fun q n => ⟨?_, q.map_start_offset? n, fun r => aligned_of_offset?⟩,
    fun q r => exists_unique_offset⟩
  have hsign : 0 ≤ n ↔ 0 ≤ n.toInt := Int64.le_iff_toInt_le
  simp only [hsign]
  exact q.offset?_eq_steps n.toInt

/-- From the last year back by the least word is no move: twelve times that fits no word. From the first
year to the last there are years to go. -/
theorem jump_eq_steps_of_years :
    let first : Partition := ⟨.yearly, 0, by decide, by decide⟩
    let last : Partition := ⟨.yearly, 9999, by decide, by decide⟩
    last.offset? Int64.minValue.toInt = none ∧
      ∃ n : Int64, first.offset? n.toInt = some last ∧ 0 < n ∧ last.offset? (-n).toInt = some first := by
  intro first last
  have hwords : last.period.checkedOffset last.start Int64.minValue = none := by decide +kernel
  have hafter : first < last := by decide +kernel
  obtain ⟨hjump, hconnect⟩ := jump_eq_steps
  obtain ⟨n, hn, -, hsign, hback⟩ := hconnect first last rfl
  refine ⟨?_, n, hn, hsign.mpr hafter, hback⟩
  have hstart := (hjump last Int64.minValue).2.1
  rw [hwords] at hstart
  exact Option.map_eq_none_iff.mp hstart

end Partition
end PartitionLedger

/-!
Finite sets of a linear order, kept as their ascending lists.

Two sets are equal exactly when they have the same members. The main statements say which members
each operation leaves.
-/
namespace PartitionLedger

structure OrderedSet (α : Type) [LT α] where
  toList : List α
  ascending : toList.Pairwise (· < ·)

namespace OrderedSet
variable {α : Type} [LT α] {s t : OrderedSet α} {x y : α}

instance : Membership α (OrderedSet α) := ⟨fun s x => x ∈ s.toList⟩

instance : EmptyCollection (OrderedSet α) := ⟨⟨[], .nil⟩⟩

instance : Inhabited (OrderedSet α) := ⟨∅⟩

def isEmpty (s : OrderedSet α) : Bool := s.toList.isEmpty

def size (s : OrderedSet α) : Nat := s.toList.length

def first? (s : OrderedSet α) : Option α := s.toList.head?

def last? (s : OrderedSet α) : Option α := s.toList.getLast?

def filter (s : OrderedSet α) (keep : α → Bool) : OrderedSet α :=
  ⟨s.toList.filter keep, s.ascending.filter keep⟩

theorem mem_def : x ∈ s ↔ x ∈ s.toList := Iff.rfl

theorem not_mem_empty : x ∉ (∅ : OrderedSet α) := List.not_mem_nil

theorem mem_filter {keep : α → Bool} : x ∈ s.filter keep ↔ x ∈ s ∧ keep x := List.mem_filter

theorem isEmpty_iff : s.isEmpty ↔ ∀ x, x ∉ s := by
  simp only [isEmpty, List.isEmpty_iff, mem_def]
  exact List.eq_nil_iff_forall_not_mem

theorem first?_eq_none_iff : s.first? = none ↔ ∀ x, x ∉ s :=
  List.head?_eq_none_iff.trans List.eq_nil_iff_forall_not_mem

theorem last?_eq_none_iff : s.last? = none ↔ ∀ x, x ∉ s :=
  List.getLast?_eq_none_iff.trans List.eq_nil_iff_forall_not_mem

theorem nodup_toList [LE α] [Std.LawfulOrderLT α] : s.toList.Nodup :=
  s.ascending.imp fun h => Std.ne_of_lt h

section From
variable [LE α] [DecidableLE α]

/-- The first member that does not come before `x`. -/
def firstFrom? (s : OrderedSet α) (x : α) : Option α := s.toList.find? (x ≤ ·)

theorem firstFrom?_eq_none (h : s.firstFrom? x = none) : ∀ y ∈ s, ¬ x ≤ y := by
  intro y hy
  simpa using List.find?_eq_none.mp h y hy

end From

section Decidable
variable [DecidableEq α]

instance : DecidableEq (OrderedSet α) := fun s t =>
  decidable_of_iff (s.toList = t.toList) <| by
    cases s
    cases t
    simp

instance (x : α) (s : OrderedSet α) : Decidable (x ∈ s) :=
  inferInstanceAs (Decidable (x ∈ s.toList))

def erase (s : OrderedSet α) (x : α) : OrderedSet α :=
  ⟨s.toList.erase x, s.ascending.sublist List.erase_sublist⟩

theorem mem_erase [LE α] [Std.LawfulOrderLT α] : y ∈ s.erase x ↔ y ∈ s ∧ y ≠ x :=
  s.nodup_toList.mem_erase_iff.trans and_comm

theorem size_erase_lt (h : x ∈ s) : (s.erase x).size < s.size := by
  have hpos := List.length_pos_of_mem h
  have herase := List.length_erase_of_mem h
  simp only [size, erase]
  omega

end Decidable

section Linear
variable [LE α] [Std.IsLinearOrder α] [Std.LawfulOrderLT α]

/-- The ascending list of a set is determined by its members. -/
theorem ext_mem (h : ∀ x, x ∈ s ↔ x ∈ t) : s = t := by
  obtain ⟨l, hl⟩ := s
  obtain ⟨m, hm⟩ := t
  simp only [mem_def] at h
  congr 1
  induction l generalizing m with
  | nil => exact (List.eq_nil_iff_forall_not_mem.mpr fun x hx => by simpa using (h x).mpr hx).symm
  | cons x l ih =>
    cases m with
    | nil => exact absurd ((h x).mp (by simp)) (by simp)
    | cons y m =>
      have hx := List.pairwise_cons.mp hl
      have hy := List.pairwise_cons.mp hm
      have heads : x = y := by
        obtain rfl | hxm := List.mem_cons.mp ((h x).mp (by simp))
        · rfl
        · obtain rfl | hyl := List.mem_cons.mp ((h y).mpr (by simp))
          · rfl
          · exact absurd (Std.lt_trans (hy.1 x hxm) (hx.1 y hyl)) Std.lt_irrefl
      subst heads
      congr 1
      refine ih hx.2 m hy.2 fun z => ?_
      constructor
      · intro hz
        obtain rfl | hzm := List.mem_cons.mp ((h z).mp (List.mem_cons_of_mem _ hz))
        · exact absurd (hx.1 z hz) Std.lt_irrefl
        · exact hzm
      · intro hz
        obtain rfl | hzl := List.mem_cons.mp ((h z).mpr (List.mem_cons_of_mem _ hz))
        · exact absurd (hy.1 z hz) Std.lt_irrefl
        · exact hzl

variable [DecidableLT α]

/-- Puts `x` in its place in an ascending list, unless it is there. -/
def place (x : α) : List α → List α
  | [] => [x]
  | y :: rest =>
    if x < y then x :: y :: rest
    else if y < x then y :: place x rest
    else y :: rest

theorem mem_place {l : List α} : y ∈ place x l ↔ y = x ∨ y ∈ l := by
  induction l with
  | nil => simp [place]
  | cons z rest ih =>
    simp only [place]
    split
    · simp
    · split
      · simp only [List.mem_cons, ih]
        exact or_left_comm
      · rename_i h h'
        have : x = z := by
          obtain h'' | h'' | h'' := Std.lt_trichotomy x z
          · exact absurd h'' h
          · exact h''
          · exact absurd h'' h'
        subst this
        simp

theorem place_ascending {l : List α} (h : l.Pairwise (· < ·)) : (place x l).Pairwise (· < ·) := by
  induction l with
  | nil => simp [place]
  | cons y rest ih =>
    have hy := List.pairwise_cons.mp h
    simp only [place]
    split
    · rename_i hxy
      refine List.pairwise_cons.mpr ⟨?_, h⟩
      intro z hz
      obtain rfl | hz := List.mem_cons.mp hz
      · exact hxy
      · exact Std.lt_trans hxy (hy.1 z hz)
    · split
      · rename_i hyx
        refine List.pairwise_cons.mpr ⟨?_, ih hy.2⟩
        intro z hz
        obtain rfl | hz := mem_place.mp hz
        · exact hyx
        · exact hy.1 z hz
      · exact h

def insert (s : OrderedSet α) (x : α) : OrderedSet α := ⟨place x s.toList, place_ascending s.ascending⟩

theorem mem_insert : y ∈ s.insert x ↔ y = x ∨ y ∈ s := mem_place

end Linear

section Least
variable [LE α] [Std.IsLinearOrder α] [Std.LawfulOrderLT α]

/-- The first member is the least. -/
theorem first?_eq_some (h : s.first? = some x) : x ∈ s ∧ ∀ y ∈ s, x ≤ y := by
  obtain ⟨rest, hl⟩ := List.head?_eq_some_iff.mp h
  have ascending := s.ascending
  simp only [mem_def, hl] at ascending ⊢
  refine ⟨List.mem_cons_self, ?_⟩
  intro y hy
  obtain rfl | hy := List.mem_cons.mp hy
  · exact Std.le_refl y
  · exact Std.le_of_lt ((List.pairwise_cons.mp ascending).1 y hy)

theorem last?_eq_some (h : s.last? = some x) : x ∈ s ∧ ∀ y ∈ s, y ≤ x := by
  obtain ⟨before, hl⟩ := List.getLast?_eq_some_iff.mp h
  have ascending := s.ascending
  simp only [mem_def, hl] at ascending ⊢
  refine ⟨by simp, ?_⟩
  intro y hy
  obtain hy | hy := List.mem_append.mp hy
  · exact Std.le_of_lt ((List.pairwise_append.mp ascending).2.2 y hy x List.mem_cons_self)
  · obtain rfl := List.mem_singleton.mp hy
    exact Std.le_refl y

theorem first?_eq_some_iff : s.first? = some x ↔ x ∈ s ∧ ∀ y ∈ s, x ≤ y := by
  refine ⟨first?_eq_some, ?_⟩
  rintro ⟨hx, hleast⟩
  cases hs : s.first? with
  | none => exact absurd hx (first?_eq_none_iff.mp hs x)
  | some y =>
    obtain ⟨hy, hfirst⟩ := first?_eq_some hs
    exact congrArg some (Std.le_antisymm (hfirst x hx) (hleast y hy))

theorem last?_eq_some_iff : s.last? = some x ↔ x ∈ s ∧ ∀ y ∈ s, y ≤ x := by
  refine ⟨last?_eq_some, ?_⟩
  rintro ⟨hx, hgreatest⟩
  cases hs : s.last? with
  | none => exact absurd hx (last?_eq_none_iff.mp hs x)
  | some y =>
    obtain ⟨hy, hlast⟩ := last?_eq_some hs
    exact congrArg some (Std.le_antisymm (hgreatest y hy) (hlast x hx))

theorem firstFrom?_eq_some [DecidableLE α] (h : s.firstFrom? x = some y) :
    (x ≤ y ∧ y ∈ s) ∧ ∀ z ∈ s, x ≤ z → y ≤ z := by
  obtain ⟨hxy, before, after, hl, hbefore⟩ := List.find?_eq_some_iff_append.mp h
  have ascending := s.ascending
  simp only [mem_def, hl] at ascending ⊢
  refine ⟨⟨of_decide_eq_true hxy, by simp⟩, ?_⟩
  intro z hz hxz
  obtain hz | hz := List.mem_append.mp hz
  · simpa [hxz] using hbefore z hz
  · obtain rfl | hz := List.mem_cons.mp hz
    · exact Std.le_refl z
    · have later := (List.pairwise_append.mp ascending).2.1
      exact Std.le_of_lt ((List.pairwise_cons.mp later).1 z hz)

end Least
end OrderedSet
end PartitionLedger

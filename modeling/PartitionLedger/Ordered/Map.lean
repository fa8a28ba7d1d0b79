/-!
Finite maps over a linear order of keys, kept as their entries in ascending order of the keys.

Two maps are equal exactly when they have the same value at every key. The main statements say what
each operation leaves at a key.
-/
namespace PartitionLedger

structure OrderedMap (κ ν : Type) [LT κ] where
  entries : List (κ × ν)
  ascending : entries.Pairwise (·.1 < ·.1)

namespace OrderedMap
variable {κ ν : Type} [LT κ] {m n : OrderedMap κ ν} {k l : κ} {v : ν}

instance : EmptyCollection (OrderedMap κ ν) := ⟨⟨[], .nil⟩⟩

instance : Inhabited (OrderedMap κ ν) := ⟨∅⟩

def isEmpty (m : OrderedMap κ ν) : Bool := m.entries.isEmpty

def filter (m : OrderedMap κ ν) (keep : κ × ν → Bool) : OrderedMap κ ν :=
  ⟨m.entries.filter keep, m.ascending.filter keep⟩

section Place
variable [DecidableLT κ]

/-- Puts a value at `k` in an ascending list of entries, over the value that is there. -/
def place (k : κ) (v : ν) : List (κ × ν) → List (κ × ν)
  | [] => [(k, v)]
  | e :: rest =>
    if k < e.1 then (k, v) :: e :: rest
    else if e.1 < k then e :: place k v rest
    else (k, v) :: rest

theorem eq_or_mem_of_mem_place {es : List (κ × ν)} {e : κ × ν} (h : e ∈ place k v es) :
    e = (k, v) ∨ e ∈ es := by
  induction es with
  | nil => simpa [place] using h
  | cons f rest ih =>
    simp only [place] at h
    split at h
    · simpa using h
    · split at h
      · obtain rfl | h := List.mem_cons.mp h
        · simp
        · obtain h | h := ih h <;> simp [h]
      · obtain h | h := List.mem_cons.mp h <;> simp [h]

theorem self_mem_place {es : List (κ × ν)} : (k, v) ∈ place k v es := by
  induction es with
  | nil => simp [place]
  | cons f rest ih =>
    simp only [place]
    split
    · simp
    · split <;> simp [ih]

variable [LE κ] [Std.IsLinearOrder κ] [Std.LawfulOrderLT κ]

theorem place_ascending {es : List (κ × ν)} (h : es.Pairwise (·.1 < ·.1)) :
    (place k v es).Pairwise (·.1 < ·.1) := by
  induction es with
  | nil => simp [place]
  | cons e rest ih =>
    have he := List.pairwise_cons.mp h
    simp only [place]
    split
    · rename_i hk
      refine List.pairwise_cons.mpr ⟨?_, h⟩
      intro f hf
      obtain rfl | hf := List.mem_cons.mp hf
      · exact hk
      · exact Std.lt_trans hk (he.1 f hf)
    · split
      · rename_i hk
        refine List.pairwise_cons.mpr ⟨?_, ih he.2⟩
        intro f hf
        obtain rfl | hf := eq_or_mem_of_mem_place hf
        · exact hk
        · exact he.1 f hf
      · rename_i hk hk'
        have : k = e.1 := by
          obtain hlt | heq | hlt := Std.lt_trichotomy k e.1
          · exact absurd hlt hk
          · exact heq
          · exact absurd hlt hk'
        subst this
        exact List.pairwise_cons.mpr ⟨he.1, he.2⟩

theorem mem_place_of_mem {es : List (κ × ν)} {e : κ × ν} (h : e ∈ es) (hk : e.1 ≠ k) :
    e ∈ place k v es := by
  induction es with
  | nil => simp at h
  | cons f rest ih =>
    simp only [place]
    split
    · simp [List.mem_cons.mp h]
    · split
      · obtain rfl | h := List.mem_cons.mp h
        · simp
        · simp [ih h]
      · rename_i hkf hfk
        have hf : k = f.1 := by
          obtain hlt | heq | hlt := Std.lt_trichotomy k f.1
          · exact absurd hlt hkf
          · exact heq
          · exact absurd hlt hfk
        obtain rfl | h := List.mem_cons.mp h
        · exact absurd hf.symm hk
        · simp [h]

def insert (m : OrderedMap κ ν) (k : κ) (v : ν) : OrderedMap κ ν :=
  ⟨place k v m.entries, place_ascending m.ascending⟩

def insertAll (m : OrderedMap κ ν) (entries : List (κ × ν)) : OrderedMap κ ν :=
  entries.foldl (fun m e => m.insert e.1 e.2) m

/-- Of two entries with one key the later one counts. -/
def ofList (entries : List (κ × ν)) : OrderedMap κ ν := (∅ : OrderedMap κ ν).insertAll entries

/-- The entries of `n` written over those of `m`. -/
def upsert (m n : OrderedMap κ ν) : OrderedMap κ ν := m.insertAll n.entries

theorem mem_insertAll {es : List (κ × ν)} {e : κ × ν} (h : e ∈ (m.insertAll es).entries) :
    e ∈ es ∨ e ∈ m.entries := by
  induction es generalizing m with
  | nil => exact .inr h
  | cons f rest ih =>
    obtain h | h := ih (m := m.insert f.1 f.2) h
    · exact .inl (List.mem_cons_of_mem f h)
    · obtain rfl | h := eq_or_mem_of_mem_place h
      · exact .inl List.mem_cons_self
      · exact .inr h

theorem mem_ofList {es : List (κ × ν)} {e : κ × ν} (h : e ∈ (ofList es).entries) : e ∈ es :=
  (mem_insertAll h).resolve_right List.not_mem_nil

end Place

section Lookup
variable [DecidableEq κ]

instance [DecidableEq ν] : DecidableEq (OrderedMap κ ν) := fun m n =>
  decidable_of_iff (m.entries = n.entries) <| by
    cases m
    cases n
    simp

def get? (m : OrderedMap κ ν) (k : κ) : Option ν :=
  (m.entries.find? fun entry => entry.1 = k).map (·.2)

theorem get?_empty : (∅ : OrderedMap κ ν).get? k = none := rfl

variable [LE κ] [Std.LawfulOrderLT κ]

theorem get?_eq_some_iff : m.get? k = some v ↔ (k, v) ∈ m.entries := by
  obtain ⟨es, h⟩ := m
  simp only [get?]
  induction es with
  | nil => simp
  | cons e rest ih =>
    obtain ⟨k', v'⟩ := e
    have he := List.pairwise_cons.mp h
    by_cases hk : k' = k
    · subst hk
      simp only [List.find?_cons, decide_true, Option.map_some, Option.some.injEq, List.mem_cons,
        Prod.mk.injEq, true_and]
      constructor
      · rintro rfl
        exact Or.inl rfl
      · rintro (rfl | hm)
        · rfl
        · exact absurd (he.1 _ hm) Std.lt_irrefl
    · simp only [List.find?_cons, hk, decide_false, List.mem_cons, Prod.mk.injEq]
      rw [ih he.2]
      constructor
      · exact Or.inr
      · rintro (⟨rfl, _⟩ | hm)
        · exact absurd rfl hk
        · exact hm

theorem get?_filter {keep : κ × ν → Bool} :
    (m.filter keep).get? k = (m.get? k).filter fun v => keep (k, v) := by
  apply Option.ext
  intro v
  rw [get?_eq_some_iff, Option.filter_eq_some_iff, get?_eq_some_iff]
  exact List.mem_filter

variable [Std.IsLinearOrder κ]

/-- The entries of a map are determined by its values. -/
theorem ext_get? (h : ∀ k, m.get? k = n.get? k) : m = n := by
  have mem : ∀ e, e ∈ m.entries ↔ e ∈ n.entries := by
    rintro ⟨k, v⟩
    rw [← get?_eq_some_iff, ← get?_eq_some_iff, h]
  obtain ⟨es, hes⟩ := m
  obtain ⟨fs, hfs⟩ := n
  clear h
  congr 1
  induction es generalizing fs with
  | nil => exact (List.eq_nil_iff_forall_not_mem.mpr fun e he => by simpa using (mem e).mpr he).symm
  | cons e es ih =>
    cases fs with
    | nil => exact absurd ((mem e).mp (by simp)) (by simp)
    | cons f fs =>
      have he := List.pairwise_cons.mp hes
      have hf := List.pairwise_cons.mp hfs
      have heads : e = f := by
        obtain rfl | hef := List.mem_cons.mp ((mem e).mp (by simp))
        · rfl
        · obtain rfl | hfe := List.mem_cons.mp ((mem f).mpr (by simp))
          · rfl
          · exact absurd (Std.lt_trans (hf.1 e hef) (he.1 f hfe)) Std.lt_irrefl
      subst heads
      congr 1
      refine ih he.2 fs hf.2 fun g => ?_
      constructor
      · intro hg
        obtain rfl | hgf := List.mem_cons.mp ((mem g).mp (List.mem_cons_of_mem _ hg))
        · exact absurd (he.1 g hg) Std.lt_irrefl
        · exact hgf
      · intro hg
        obtain rfl | hge := List.mem_cons.mp ((mem g).mpr (List.mem_cons_of_mem _ hg))
        · exact absurd (hf.1 g hg) Std.lt_irrefl
        · exact hge

variable [DecidableLT κ]

theorem get?_insert : (m.insert k v).get? l = if l = k then some v else m.get? l := by
  split
  · rename_i h
    subst h
    exact get?_eq_some_iff.mpr self_mem_place
  · rename_i h
    apply Option.ext
    intro w
    rw [get?_eq_some_iff, get?_eq_some_iff]
    constructor
    · intro hw
      obtain hw | hw := eq_or_mem_of_mem_place hw
      · exact absurd (congrArg Prod.fst hw) h
      · exact hw
    · exact fun hw => mem_place_of_mem hw h

theorem get?_insertAll {es : List (κ × ν)} (h : es.Pairwise (·.1 < ·.1)) :
    (m.insertAll es).get? k = ((es.find? fun e => e.1 = k).map (·.2)).or (m.get? k) := by
  induction es generalizing m with
  | nil => simp [insertAll]
  | cons e rest ih =>
    have he := List.pairwise_cons.mp h
    have step : m.insertAll (e :: rest) = (m.insert e.1 e.2).insertAll rest := rfl
    rw [step, ih he.2, get?_insert]
    by_cases hk : e.1 = k
    · have absent : rest.find? (fun f => f.1 = k) = none := by
        refine List.find?_eq_none.mpr fun f hf => ?_
        have := he.1 f hf
        rintro heq
        rw [of_decide_eq_true heq, hk] at this
        exact Std.lt_irrefl this
      simp [absent, hk]
    · simp [hk, Ne.symm hk]

theorem get?_insertAll_of_not_mem {es : List (κ × ν)} (h : k ∉ es.map (·.1)) :
    (m.insertAll es).get? k = m.get? k := by
  induction es generalizing m with
  | nil => rfl
  | cons e rest ih =>
    have he : k ≠ e.1 := fun he => h (by simp [he])
    have hrest : k ∉ rest.map (·.1) := fun hm => h (List.mem_cons_of_mem e.1 hm)
    have step : m.insertAll (e :: rest) = (m.insert e.1 e.2).insertAll rest := rfl
    rw [step, ih hrest, get?_insert, if_neg he]

/-- Of entries with different keys each one counts. -/
theorem get?_insertAll_of_mem {es : List (κ × ν)} (h : (es.map (·.1)).Nodup) (hm : (k, v) ∈ es) :
    (m.insertAll es).get? k = some v := by
  induction es generalizing m with
  | nil => cases hm
  | cons e rest ih =>
    have he := List.nodup_cons.mp h
    have step : m.insertAll (e :: rest) = (m.insert e.1 e.2).insertAll rest := rfl
    obtain rfl | hm := List.mem_cons.mp hm
    · rw [step, get?_insertAll_of_not_mem he.1, get?_insert, if_pos rfl]
    · exact ih he.2 hm

theorem get?_ofList {es : List (κ × ν)} (h : (es.map (·.1)).Nodup) :
    (ofList es).get? k = some v ↔ (k, v) ∈ es :=
  ⟨fun hv => mem_ofList (get?_eq_some_iff.mp hv), get?_insertAll_of_mem h⟩

/-- What is written over a map counts first. -/
theorem get?_upsert : (m.upsert n).get? k = (n.get? k).or (m.get? k) := get?_insertAll n.ascending

/-- Maps that agree where both have a value can be written over another one in any order. -/
theorem upsert_comm {n' : OrderedMap κ ν}
    (h : ∀ k v w, n.get? k = some v → n'.get? k = some w → v = w) :
    (m.upsert n).upsert n' = (m.upsert n').upsert n := by
  apply ext_get?
  intro k
  simp only [get?_upsert]
  cases hv : n.get? k with
  | none => simp
  | some v =>
    cases hw : n'.get? k with
    | none => simp
    | some w => simp [h k v w hv hw]

end Lookup
end OrderedMap
end PartitionLedger

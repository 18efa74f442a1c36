import Nget.Lib.FixedWidth

/-! Finite maps as lists of entries in strictly ascending key order: lookup, the first entry at or
    above a key, assignment, removal. The order of the keys is a field, so every value is a map, and
    what an operation does is said by which entries it has (`mem_assign`, `mem_erase`, `mem_filter`);
    `ext_mem` turns equal entries into equal maps. -/

/-- A finite map: its entries, in strictly ascending key order. -/
structure SortedMap (κ ν : Type) [LT κ] where
  entries : List (κ × ν) := []
  sorted : entries.Pairwise fun a b => a.1 < b.1 := by simp

namespace SortedMap
variable {κ ν : Type}

instance [LT κ] : Membership (κ × ν) (SortedMap κ ν) := ⟨fun m e => e ∈ m.entries⟩

instance [LT κ] : EmptyCollection (SortedMap κ ν) := ⟨{}⟩

instance [LT κ] [DecidableEq κ] [DecidableEq ν] : DecidableEq (SortedMap κ ν) := fun m n =>
  decidable_of_iff (m.entries = n.entries) ⟨fun h => by cases m; cases n; cases h; rfl, fun h => h ▸ rfl⟩

/-- The map with every value changed by `f`. -/
def mapValues {μ : Type} [LT κ] (f : ν → μ) (m : SortedMap κ ν) : SortedMap κ μ :=
  ⟨m.entries.map fun e => (e.1, f e.2), List.pairwise_map.mpr m.sorted⟩

/-- The map has no entry. -/
def isEmpty [LT κ] (m : SortedMap κ ν) : Bool := m.entries.isEmpty

variable [LinearOrder κ]

/-- The first entry whose key is at or above `k`. -/
def lowerBound (m : SortedMap κ ν) (k : κ) : Option (κ × ν) := m.entries.find? fun e => k ≤ e.1

/-- The entry of key `k`. -/
def find? (m : SortedMap κ ν) (k : κ) : Option (κ × ν) := m.entries.find? fun e => e.1 = k

/-- The entries whose keys are at or below `k`, from the highest down. -/
def downFrom (m : SortedMap κ ν) (k : κ) : List (κ × ν) := (m.entries.filter fun e => e.1 ≤ k).reverse

/-- The entry of key `k` set in an ascending list of entries. -/
def assignList (k : κ) (v : ν) : List (κ × ν) → List (κ × ν)
  | [] => [(k, v)]
  | e :: es => if e.1 < k then e :: assignList k v es else if k < e.1 then (k, v) :: e :: es else (k, v) :: es

theorem mem_assignList {k : κ} {v : ν} {x : κ × ν} :
    ∀ {es : List (κ × ν)}, es.Pairwise (fun a b => a.1 < b.1) →
      (x ∈ assignList k v es ↔ x = (k, v) ∨ x ∈ es ∧ x.1 ≠ k)
  | [], _ => by simp [assignList]
  | e :: es, h => by
    obtain ⟨hhead, htail⟩ := List.pairwise_cons.mp h
    have ih := mem_assignList (k := k) (v := v) (x := x) htail
    unfold assignList
    split
    · next hlt =>
      simp only [List.mem_cons, ih]
      grind
    · split
      · simp only [List.mem_cons]
        grind
      · have heq : e.1 = k := le_antisymm (not_lt.mp ‹_›) (not_lt.mp ‹_›)
        simp only [List.mem_cons]
        grind

theorem assignList_sorted {k : κ} {v : ν} : ∀ {es : List (κ × ν)}, es.Pairwise (fun a b => a.1 < b.1) →
    (assignList k v es).Pairwise fun a b => a.1 < b.1
  | [], _ => by simp [assignList]
  | e :: es, h => by
    obtain ⟨hhead, htail⟩ := List.pairwise_cons.mp h
    unfold assignList
    split
    · next hlt =>
      refine List.pairwise_cons.mpr ⟨fun x hx => ?_, assignList_sorted htail⟩
      rcases (mem_assignList htail).mp hx with rfl | ⟨hx, -⟩
      · exact hlt
      · exact hhead x hx
    · split
      · next hlt =>
        refine List.pairwise_cons.mpr ⟨fun x hx => ?_, h⟩
        rcases List.mem_cons.mp hx with rfl | hx
        · exact hlt
        · exact hlt.trans (hhead x hx)
      · have heq : e.1 = k := le_antisymm (not_lt.mp ‹_›) (not_lt.mp ‹_›)
        exact List.pairwise_cons.mpr ⟨fun x hx => heq ▸ hhead x hx, htail⟩

/-- The map with the entry of key `k` set to `v`. -/
def assign (m : SortedMap κ ν) (k : κ) (v : ν) : SortedMap κ ν := ⟨assignList k v m.entries, assignList_sorted m.sorted⟩

/-- The map's entries that satisfy `p`. -/
def filter (m : SortedMap κ ν) (p : κ × ν → Bool) : SortedMap κ ν := ⟨m.entries.filter p, m.sorted.filter p⟩

/-- The map without the entry of key `k`. -/
def erase (m : SortedMap κ ν) (k : κ) : SortedMap κ ν := m.filter fun e => e.1 ≠ k

/-- The map with an entry of key `k` added, when it has none. -/
def insertNew (m : SortedMap κ ν) (k : κ) (v : ν) : SortedMap κ ν :=
  match m.find? k with
  | some _ => m
  | none => m.assign k v

section Lemmas
variable {m n : SortedMap κ ν} {k : κ} {v : ν} {x y : κ × ν}

theorem mem_def : x ∈ m ↔ x ∈ m.entries := Iff.rfl

@[simp] theorem not_mem_empty : x ∉ (∅ : SortedMap κ ν) := List.not_mem_nil

@[simp] theorem mem_assign : x ∈ m.assign k v ↔ x = (k, v) ∨ x ∈ m ∧ x.1 ≠ k := mem_assignList m.sorted

@[simp] theorem mem_filter {p : κ × ν → Bool} : x ∈ m.filter p ↔ x ∈ m ∧ p x := List.mem_filter

@[simp] theorem mem_erase : x ∈ m.erase k ↔ x ∈ m ∧ x.1 ≠ k := by simp [erase]

theorem isEmpty_iff : m.isEmpty = true ↔ ∀ x, x ∉ m := by
  simp [isEmpty, mem_def, List.eq_nil_iff_forall_not_mem]

/-- A key has one entry. -/
theorem eq_of_mem (hx : x ∈ m) (hy : y ∈ m) (h : x.1 = y.1) : x = y := by
  by_contra hne
  rcases List.pairwise_iff_getElem.mp m.sorted with hs
  obtain ⟨i, hi, rfl⟩ := List.mem_iff_getElem.mp hx
  obtain ⟨j, hj, rfl⟩ := List.mem_iff_getElem.mp hy
  rcases lt_trichotomy i j with hij | rfl | hij
  · exact absurd h (hs i j hi hj hij).ne
  · exact hne rfl
  · exact absurd h (hs j i hj hi hij).ne'

theorem find?_eq_some_iff : m.find? k = some x ↔ x ∈ m ∧ x.1 = k := by
  constructor
  · intro h
    exact ⟨List.mem_of_find?_eq_some h, by simpa using List.find?_some h⟩
  · rintro ⟨hx, rfl⟩
    obtain ⟨y, hy⟩ : ∃ y, m.find? x.1 = some y :=
      Option.isSome_iff_exists.mp (List.find?_isSome.mpr ⟨x, hx, by simp⟩)
    have hyk : y.1 = x.1 := by simpa using List.find?_some hy
    rw [hy, eq_of_mem (List.mem_of_find?_eq_some hy) hx hyk]

theorem find?_eq_none_iff : m.find? k = none ↔ ∀ x ∈ m, x.1 ≠ k := by
  simp [find?, List.find?_eq_none, mem_def]

theorem lowerBound_eq_some_iff :
    m.lowerBound k = some x ↔ x ∈ m ∧ k ≤ x.1 ∧ ∀ y ∈ m, k ≤ y.1 → x.1 ≤ y.1 := by
  constructor
  · intro h
    obtain ⟨hk, before, after, hsplit, hbefore⟩ := List.find?_eq_some_iff_append.mp h
    have hsorted := m.sorted
    rw [hsplit, List.pairwise_append, List.pairwise_cons] at hsorted
    refine ⟨List.mem_of_find?_eq_some h, by simpa using hk, fun y hy hky => ?_⟩
    rw [mem_def, hsplit, List.mem_append, List.mem_cons] at hy
    rcases hy with hy | rfl | hy
    · have := hbefore y hy
      simp at this
      exact absurd hky (not_le.mpr this)
    · exact le_rfl
    · exact (hsorted.2.1.1 y hy).le
  · rintro ⟨hx, hk, hmin⟩
    obtain ⟨y, hy⟩ : ∃ y, m.lowerBound k = some y :=
      Option.isSome_iff_exists.mp (List.find?_isSome.mpr ⟨x, hx, by simpa using hk⟩)
    obtain ⟨hkey, before, after, hsplit, hbefore⟩ := List.find?_eq_some_iff_append.mp hy
    have hyx : y.1 ≤ x.1 := by
      have hsorted := m.sorted
      rw [hsplit, List.pairwise_append, List.pairwise_cons] at hsorted
      rw [mem_def, hsplit, List.mem_append, List.mem_cons] at hx
      rcases hx with hx | rfl | hx
      · have := hbefore x hx
        simp at this
        exact absurd hk (not_le.mpr this)
      · exact le_rfl
      · exact (hsorted.2.1.1 x hx).le
    have hym := List.mem_of_find?_eq_some hy
    rw [hy, eq_of_mem hym hx (le_antisymm hyx (hmin y hym (by simpa using hkey)))]

theorem lowerBound_eq_none_iff : m.lowerBound k = none ↔ ∀ x ∈ m, x.1 < k := by
  simp [lowerBound, List.find?_eq_none, mem_def]

theorem mem_downFrom : x ∈ m.downFrom k ↔ x ∈ m ∧ x.1 ≤ k := by
  simp [downFrom, mem_def]

theorem downFrom_sorted : (m.downFrom k).Pairwise fun a b => b.1 < a.1 := by
  rw [downFrom, List.pairwise_reverse]
  exact m.sorted.filter _

/-- Maps with the same entries are equal. -/
theorem ext_mem (h : ∀ x, x ∈ m ↔ x ∈ n) : m = n := by
  have hp : m.entries.Perm n.entries := by
    refine (List.perm_ext_iff_of_nodup ?_ ?_).mpr h
    · exact m.sorted.imp fun hab hne => absurd (congrArg Prod.fst hne) hab.ne
    · exact n.sorted.imp fun hab hne => absurd (congrArg Prod.fst hne) hab.ne
  have hl : m.entries = n.entries :=
    hp.eq_of_pairwise (fun a b _ _ hab hba => absurd hab (lt_asymm hba)) m.sorted n.sorted
  cases m; cases n; cases hl; rfl

/-- Maps that find the same entries are equal. -/
theorem ext_find? (h : ∀ k, m.find? k = n.find? k) : m = n := ext_mem fun x => by
  have hx := h x.1
  constructor
  · exact fun hm => (find?_eq_some_iff.mp (hx ▸ find?_eq_some_iff.mpr ⟨hm, rfl⟩)).1
  · exact fun hn => (find?_eq_some_iff.mp (hx ▸ find?_eq_some_iff.mpr ⟨hn, rfl⟩)).1

/-- Maps with the same entry of a key find the same there. -/
theorem find?_congr (h : ∀ x, x.1 = k → (x ∈ m ↔ x ∈ n)) : m.find? k = n.find? k := by
  cases hn : n.find? k with
  | some x =>
    obtain ⟨hx, hk⟩ := find?_eq_some_iff.mp hn
    exact find?_eq_some_iff.mpr ⟨(h x hk).mpr hx, hk⟩
  | none =>
    rw [find?_eq_none_iff] at hn ⊢
    exact fun x hx hk => hn x ((h x hk).mp hx) hk

theorem find?_assign {j : κ} : (m.assign k v).find? j = if j = k then some (k, v) else m.find? j := by
  split
  · next h => exact find?_eq_some_iff.mpr ⟨by simp, h.symm⟩
  · next h =>
    cases hm : m.find? j with
    | none =>
      rw [find?_eq_none_iff] at hm ⊢
      intro x hx
      rcases mem_assign.mp hx with rfl | ⟨hx, -⟩
      · exact fun hk => h hk.symm
      · exact hm x hx
    | some x =>
      obtain ⟨hx, rfl⟩ := find?_eq_some_iff.mp hm
      exact find?_eq_some_iff.mpr ⟨mem_assign.mpr (.inr ⟨hx, h⟩), rfl⟩

theorem find?_insertNew {j : κ} : (m.insertNew k v).find? j = (m.find? j).or (if j = k then some (k, v) else none) := by
  unfold insertNew
  cases hk : m.find? k with
  | some x =>
    dsimp only
    by_cases h : j = k
    · rw [h, hk, Option.some_or]
    · rw [if_neg h, Option.or_none]
  | none =>
    dsimp only
    rw [find?_assign]
    by_cases h : j = k
    · rw [if_pos h, if_pos h, h, hk, Option.none_or]
    · rw [if_neg h, if_neg h, Option.or_none]

theorem mem_insertNew (h : x ∈ m.insertNew k v) : x ∈ m ∨ x = (k, v) := by
  unfold insertNew at h
  cases hk : m.find? k with
  | some y =>
    rw [hk] at h
    exact Or.inl h
  | none =>
    rw [hk] at h
    rcases mem_assign.mp h with h | ⟨h, -⟩
    · exact Or.inr h
    · exact Or.inl h

theorem find?_foldl_insertNew {j : κ} : ∀ (es : List (κ × ν)) (m : SortedMap κ ν),
    (es.foldl (fun m e => m.insertNew e.1 e.2) m).find? j = (m.find? j).or (es.find? fun e => e.1 = j)
  | [], m => by simp
  | e :: es, m => by
    rw [List.foldl_cons, find?_foldl_insertNew es, find?_insertNew, Option.or_assoc, List.find?_cons]
    by_cases hj : j = e.1
    · simp [hj]
    · simp [hj, Ne.symm hj]

/-- A map is what its entries make of the empty map. -/
theorem foldl_insertNew_entries : m.entries.foldl (fun m e => m.insertNew e.1 e.2) ∅ = m := ext_find? fun j => by
  rw [find?_foldl_insertNew]
  rfl

/-! ### The sum over the values -/

section Sum
variable {M : Type} [AddCommMonoid M] {g : ν → M}

/-- The sum of what `g` gives for the values. -/
def sumValues (g : ν → M) (m : SortedMap κ ν) : M := (m.entries.map fun e => g e.2).sum

@[simp] theorem sumValues_empty : sumValues g (∅ : SortedMap κ ν) = 0 := rfl

theorem sum_assignList : ∀ {es : List (κ × ν)}, es.Pairwise (fun a b => a.1 < b.1) →
    ((assignList k v es).map fun e => g e.2).sum + ((es.find? fun e => e.1 = k).map fun e => g e.2).getD 0 =
      (es.map fun e => g e.2).sum + g v
  | [], _ => by simp [assignList]
  | e :: es, h => by
    obtain ⟨hhead, htail⟩ := List.pairwise_cons.mp h
    have ih := @sum_assignList es htail
    rcases lt_trichotomy e.1 k with hlt | heq | hgt
    · rw [List.find?_cons_of_neg (by simpa using hlt.ne)]
      simp only [assignList, if_pos hlt, List.map_cons, List.sum_cons, add_assoc, ih]
    · rw [List.find?_cons_of_pos (by simpa using heq)]
      simp only [assignList, heq, lt_irrefl, if_false, List.map_cons, List.sum_cons, Option.map_some, Option.getD_some]
      rw [add_comm (g v), add_right_comm, add_comm _ (g e.2)]
    · have hnone : (e :: es).find? (fun e => e.1 = k) = none := by
        refine List.find?_eq_none.mpr fun x hx => ?_
        rcases List.mem_cons.mp hx with rfl | hx
        · simpa using hgt.ne'
        · simpa using (hgt.trans (hhead x hx)).ne'
      simp only [hnone, assignList, if_neg hgt.not_gt, if_pos hgt, List.map_cons, List.sum_cons, Option.map_none,
        Option.getD_none, add_zero]
      rw [add_comm (g v)]

/-- An assignment puts the new value's share in place of the old one's. -/
theorem sumValues_assign : sumValues g (m.assign k v) + ((m.find? k).map fun e => g e.2).getD 0 = sumValues g m + g v :=
  sum_assignList m.sorted

end Sum

end Lemmas
end SortedMap

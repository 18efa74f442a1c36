import Nget.Lib.SortedMap

/-! Finite sets as lists of elements in strictly ascending order, that is as maps to nothing. Sets with the
    same elements are equal (`ext`). -/

/-- A finite set. -/
structure SortedSet (κ : Type) [LT κ] where
  map : SortedMap κ Unit := ∅

namespace SortedSet
variable {κ : Type}

instance [LT κ] : EmptyCollection (SortedSet κ) := ⟨{}⟩

instance [LT κ] : Membership κ (SortedSet κ) := ⟨fun s k => (k, ()) ∈ s.map⟩

instance [LT κ] [DecidableEq κ] : DecidableEq (SortedSet κ) := fun s t =>
  decidable_of_iff (s.map = t.map) ⟨fun h => by cases s; cases t; cases h; rfl, fun h => h ▸ rfl⟩

/-- The elements, from the lowest up. -/
def toList [LT κ] (s : SortedSet κ) : List κ := s.map.entries.map (·.1)

/-- The set has no element. -/
def isEmpty [LT κ] (s : SortedSet κ) : Bool := s.map.isEmpty

section
variable [LT κ] {s : SortedSet κ} {k : κ}

theorem mem_toList : k ∈ s.toList ↔ k ∈ s := by
  constructor
  · intro h
    obtain ⟨e, he, rfl⟩ := List.mem_map.mp h
    exact he
  · exact fun h => List.mem_map.mpr ⟨(k, ()), h, rfl⟩

instance [DecidableEq κ] : Decidable (k ∈ s) := decidable_of_iff (k ∈ s.toList) mem_toList

theorem isEmpty_toList : s.isEmpty = s.toList.isEmpty := by
  rw [isEmpty, toList, SortedMap.isEmpty]
  cases s.map.entries <;> rfl

end

variable [LinearOrder κ]

/-- The set with `k` in it. -/
def insert (s : SortedSet κ) (k : κ) : SortedSet κ := ⟨s.map.assign k ()⟩

/-- The set without `k`. -/
def erase (s : SortedSet κ) (k : κ) : SortedSet κ := ⟨s.map.erase k⟩

section
variable {s t : SortedSet κ} {j k : κ}

@[simp] theorem not_mem_empty : k ∉ (∅ : SortedSet κ) := SortedMap.not_mem_empty

@[simp] theorem mem_insert : j ∈ s.insert k ↔ j = k ∨ j ∈ s := by
  show (j, ()) ∈ s.map.assign k () ↔ _
  rw [SortedMap.mem_assign]
  constructor
  · rintro (h | ⟨h, -⟩)
    · exact Or.inl (congrArg Prod.fst h)
    · exact Or.inr h
  · rintro (rfl | h)
    · exact Or.inl rfl
    · by_cases hjk : j = k
      · exact Or.inl (by rw [hjk])
      · exact Or.inr ⟨h, hjk⟩

@[simp] theorem mem_erase : j ∈ s.erase k ↔ j ∈ s ∧ j ≠ k := SortedMap.mem_erase

theorem isEmpty_iff : s.isEmpty = true ↔ ∀ k, k ∉ s := by
  rw [isEmpty_toList, List.isEmpty_iff, List.eq_nil_iff_forall_not_mem]
  simp only [mem_toList]

/-- Sets with the same elements are equal. -/
theorem ext (h : ∀ k, k ∈ s ↔ k ∈ t) : s = t := by
  have hmap : s.map = t.map := SortedMap.ext_mem fun x => h x.1
  cases s
  cases t
  cases hmap
  rfl

/-- The set that elements are put into one by one. -/
theorem mem_foldl_insert : ∀ {ks : List κ} {s : SortedSet κ}, j ∈ ks.foldl insert s ↔ j ∈ ks ∨ j ∈ s
  | [], s => by simp
  | k :: ks, s => by
    rw [List.foldl_cons, mem_foldl_insert, mem_insert, List.mem_cons]
    constructor
    · rintro (h | rfl | h)
      · exact Or.inl (Or.inr h)
      · exact Or.inl (Or.inl rfl)
      · exact Or.inr h
    · rintro ((rfl | h) | h)
      · exact Or.inr (Or.inl rfl)
      · exact Or.inl h
      · exact Or.inr (Or.inr h)

/-- A set is what its elements make of the empty set. -/
theorem foldl_insert_toList : s.toList.foldl insert ∅ = s := ext fun k => by
  rw [mem_foldl_insert, mem_toList]
  simp

end
end SortedSet

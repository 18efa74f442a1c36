import Mathlib

/-! The 0-1 knapsack over ordered groups of values and sizes: items are numbered, a choice is a finite set of
    them, and what the first `n` items can reach within a capacity is a recursion over the items. -/

namespace ZeroOne
open Finset
variable {α β : Type} [AddCommGroup α] [LinearOrder α] [AddCommGroup β] [LinearOrder β]

/-- The greatest value of a choice from the first `n` items that fits into a capacity, item by item. -/
def optimum (value : ℕ → α) (size : ℕ → β) : ℕ → β → α
  | 0, _ => 0
  | n + 1, c =>
    if size n ≤ c then max (optimum value size n c) (optimum value size n (c - size n) + value n)
    else optimum value size n c

/-- The choices from the first `n` items that fit into the capacity `c`. -/
def Fits (size : ℕ → β) (n : ℕ) (c : β) (s : Finset ℕ) : Prop := s ⊆ range n ∧ ∑ i ∈ s, size i ≤ c

section
variable {value : ℕ → α} {size : ℕ → β} {n m : ℕ} {c : β} {s : Finset ℕ}

/-- The item `n` is one that improves the value for the capacity `c`. -/
def Improves (value : ℕ → α) (size : ℕ → β) (c : β) (n : ℕ) : Prop :=
  optimum value size n c < optimum value size (n + 1) c

instance : DecidablePred (Improves value size c) := fun n => inferInstanceAs (Decidable (optimum value size n c < _))

theorem optimum_le_succ : optimum value size n c ≤ optimum value size (n + 1) c := by
  rw [optimum]
  split
  · exact le_max_left _ _
  · exact le_rfl

theorem improves_iff : Improves value size c n ↔
    size n ≤ c ∧ optimum value size n c < optimum value size n (c - size n) + value n := by
  unfold Improves
  rw [optimum]
  split
  · next hfit => simp [hfit]
  · next hfit => simp [hfit]

theorem Improves.optimum_succ (h : Improves value size c n) :
    optimum value size (n + 1) c = optimum value size n (c - size n) + value n := by
  obtain ⟨hfit, hlt⟩ := improves_iff.mp h
  rw [optimum, if_pos hfit, max_eq_right hlt.le]

theorem optimum_succ_of_not (h : ¬Improves value size c n) : optimum value size (n + 1) c = optimum value size n c :=
  le_antisymm (not_lt.mp h) optimum_le_succ

/-- Items that do not improve the value for a capacity leave it as it is. -/
theorem optimum_eq_of_not (hmn : m ≤ n) (h : ∀ i, m ≤ i → i < n → ¬Improves value size c i) :
    optimum value size n c = optimum value size m c := by
  induction n, hmn using Nat.le_induction with
  | base => rfl
  | succ n hmn ih =>
    rw [optimum_succ_of_not (h n hmn n.lt_succ_self)]
    exact ih fun i him hin => h i him (hin.trans n.lt_succ_self)

theorem optimum_zero (hsize : ∀ i < n, 0 < size i) : optimum value size n 0 = 0 := by
  rw [optimum_eq_of_not (Nat.zero_le n) fun i _ hin himp => ?_]
  · rfl
  · exact absurd (improves_iff.mp himp).1 (not_le.mpr (hsize i hin))

theorem optimum_le_sum [IsOrderedAddMonoid α] (hvalue : ∀ i < n, 0 ≤ value i) :
    optimum value size n c ≤ ∑ i ∈ range n, value i := by
  induction n generalizing c with
  | zero => exact le_rfl
  | succ n ih =>
    have hle : ∀ c, optimum value size n c ≤ ∑ i ∈ range n, value i := fun c =>
      ih fun i hin => hvalue i (hin.trans n.lt_succ_self)
    rw [sum_range_succ]
    by_cases himp : Improves value size c n
    · rw [himp.optimum_succ]
      exact add_le_add_left (hle (c - size n)) (value n)
    · rw [optimum_succ_of_not himp]
      exact (hle c).trans (le_add_of_nonneg_right (hvalue n n.lt_succ_self))

variable [IsOrderedAddMonoid β]

theorem exists_sum_eq_optimum (hc : 0 ≤ c) : ∃ s, Fits size n c s ∧ ∑ i ∈ s, value i = optimum value size n c := by
  induction n generalizing c with
  | zero => exact ⟨∅, ⟨subset_rfl, hc⟩, rfl⟩
  | succ n ih =>
    by_cases himp : Improves value size c n
    · have hfit := (improves_iff.mp himp).1
      obtain ⟨s, ⟨hsub, hsum⟩, hval⟩ := ih (sub_nonneg.mpr hfit)
      have hn : n ∉ s := fun h => lt_irrefl n (mem_range.mp (hsub h))
      refine ⟨insert n s, ⟨?_, ?_⟩, ?_⟩
      · rw [range_add_one]
        exact insert_subset_insert n hsub
      · rw [sum_insert hn, add_comm]
        exact le_sub_iff_add_le.mp hsum
      · rw [sum_insert hn, hval, himp.optimum_succ, add_comm]
    · obtain ⟨s, ⟨hsub, hsum⟩, hval⟩ := ih hc
      exact ⟨s, ⟨hsub.trans (range_mono n.le_succ), hsum⟩, hval.trans (optimum_succ_of_not himp).symm⟩

variable [IsOrderedAddMonoid α]

theorem sum_le_optimum (hsize : ∀ i < n, 0 ≤ size i) (hs : Fits size n c s) :
    ∑ i ∈ s, value i ≤ optimum value size n c := by
  induction n generalizing c s with
  | zero =>
    obtain rfl : s = ∅ := subset_empty.mp hs.1
    exact le_rfl
  | succ n ih =>
    have hsize' : ∀ i < n, 0 ≤ size i := fun i hin => hsize i (hin.trans n.lt_succ_self)
    have hrest : s.erase n ⊆ range n := fun i hi => by
      obtain ⟨hne, hi⟩ := mem_erase.mp hi
      have := mem_range.mp (hs.1 hi)
      exact mem_range.mpr (by omega)
    by_cases hn : n ∈ s
    · have hsum := hs.2
      rw [← sum_erase_add s size hn] at hsum
      have hpos : 0 ≤ ∑ i ∈ s.erase n, size i := sum_nonneg fun i hi => hsize' i (mem_range.mp (hrest hi))
      have hfit : size n ≤ c := (le_add_of_nonneg_left hpos).trans hsum
      have hle := ih hsize' ⟨hrest, le_sub_iff_add_le.mpr hsum⟩
      rw [← sum_erase_add s value hn, optimum, if_pos hfit]
      exact (add_le_add_left hle (value n)).trans (le_max_right _ _)
    · rw [erase_eq_of_notMem hn] at hrest
      exact (ih hsize' ⟨hrest, hs.2⟩).trans optimum_le_succ

theorem isGreatest_optimum (hsize : ∀ i < n, 0 ≤ size i) (hc : 0 ≤ c) :
    IsGreatest {v | ∃ s, Fits size n c s ∧ ∑ i ∈ s, value i = v} (optimum value size n c) := by
  refine ⟨exists_sum_eq_optimum hc, ?_⟩
  rintro v ⟨s, hs, rfl⟩
  exact sum_le_optimum hsize hs

end

/-! ### Covers -/

section
variable {value : ℕ → α} {size : ℕ → β} {n i : ℕ} {s : Finset ℕ} {target : α}

/-- The choices from the first `n` items that are worth at least the target. -/
def Covers (value : ℕ → α) (n : ℕ) (target : α) (s : Finset ℕ) : Prop := s ⊆ range n ∧ target ≤ ∑ i ∈ s, value i

variable [IsOrderedAddMonoid β]

/-- Nothing can be dropped from a cover of least size. -/
theorem sum_erase_lt (hsize : ∀ i < n, 0 < size i) (hs : Covers value n target s)
    (hleast : ∀ t, Covers value n target t → ∑ i ∈ s, size i ≤ ∑ i ∈ t, size i) (hi : i ∈ s) :
    ∑ k ∈ s.erase i, value k < target := by
  by_contra hge
  have hcover : Covers value n target (s.erase i) := ⟨(erase_subset i s).trans hs.1, not_lt.mp hge⟩
  have hle := hleast _ hcover
  rw [← sum_erase_add s size hi] at hle
  exact absurd (hsize i (mem_range.mp (hs.1 hi))) (not_lt.mpr (nonpos_of_add_le_right hle))

variable [IsOrderedAddMonoid α]

theorem covers_sdiff_iff (hs : s ⊆ range n) :
    Covers value n target (range n \ s) ↔ Fits value n (∑ i ∈ range n, value i - target) s := by
  unfold Covers Fits
  rw [and_iff_right sdiff_subset, and_iff_right hs, ← sum_sdiff hs, le_sub_iff_add_le, add_comm, add_le_add_iff_right]

/-- What a best choice for the rest of the value leaves is a least cover. -/
theorem isLeast_cover (hs : Fits value n (∑ i ∈ range n, value i - target) s)
    (hbest : ∀ t, Fits value n (∑ i ∈ range n, value i - target) t → ∑ i ∈ t, size i ≤ ∑ i ∈ s, size i) :
    IsLeast {c | ∃ t, Covers value n target t ∧ ∑ i ∈ t, size i = c} (∑ i ∈ range n \ s, size i) := by
  refine ⟨⟨_, (covers_sdiff_iff hs.1).mpr hs, rfl⟩, ?_⟩
  rintro c ⟨t, ht, rfl⟩
  have hleft : Fits value n (∑ i ∈ range n, value i - target) (range n \ t) := by
    rw [← covers_sdiff_iff sdiff_subset, Finset.sdiff_sdiff_eq_self ht.1]
    exact ht
  have hle := hbest _ hleft
  have hsum := (sum_sdiff (f := size) hs.1).trans (sum_sdiff (f := size) ht.1).symm
  refine le_of_add_le_add_right (a := ∑ i ∈ s, size i) ?_
  rw [hsum, add_comm]
  exact add_le_add_right hle _

end
end ZeroOne

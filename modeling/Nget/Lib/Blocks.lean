import Mathlib

/-! Texts that are taken in block by block, whatever pieces they come in. -/

namespace Blocks
variable {α σ : Type} {n : Nat} {f : σ → List α → σ}

/-- All whole blocks of the text are taken in; what is left of it is less than a block. -/
def absorb (n : Nat) (f : σ → List α → σ) (s : σ) (xs : List α) : σ × List α :=
  if 0 < n ∧ n ≤ xs.length then absorb n f (f s (xs.take n)) (xs.drop n) else (s, xs)
termination_by xs.length
decreasing_by
  rw [List.length_drop]
  omega

theorem absorb_short {s : σ} {xs : List α} (h : xs.length < n) : absorb n f s xs = (s, xs) := by
  rw [absorb, if_neg (by omega)]

theorem absorb_block {s : σ} {xs ys : List α} (hn : 0 < n) (h : xs.length = n) :
    absorb n f s (xs ++ ys) = absorb n f (f s xs) ys := by
  rw [absorb, if_pos ⟨hn, by rw [List.length_append]; omega⟩, ← h, List.take_left, List.drop_left]

theorem absorb_rest (hn : 0 < n) (s : σ) (xs : List α) : (absorb n f s xs).2.length = xs.length % n := by
  fun_induction absorb n f s xs with
  | case1 s xs h ih => rw [ih, List.length_drop, Nat.mod_eq_sub_mod h.2]
  | case2 s xs h =>
    change xs.length = _
    exact (Nat.mod_eq_of_lt (by omega)).symm

/-- A text that comes in two pieces. -/
theorem absorb_append (hn : 0 < n) (s : σ) (xs ys : List α) :
    absorb n f s (xs ++ ys) = absorb n f (absorb n f s xs).1 ((absorb n f s xs).2 ++ ys) := by
  fun_induction absorb n f s xs with
  | case1 s xs h ih =>
    rw [← ih, ← absorb_block hn (List.length_take_of_le h.2), ← List.append_assoc, List.take_append_drop]
  | case2 s xs h => rfl

end Blocks

import Mathlib.Data.List.Basic
import Mathlib.Tactic.Ring

/-! Ring buffers: `n` cells, of which those from `head` on, up to `tail` and around the end, are in use. With
    one cell always left free, equal indices mean that none is. -/

namespace RingBuffer
variable {α : Type} {n head tail : Nat} {cell : Nat → α} {b : List α}

/-- How many cells are in use. -/
def size (n head tail : Nat) : Nat := (tail + n - head) % n

/-- What the cells in use hold, from the head on. -/
def content (n head tail : Nat) (cell : Nat → α) : List α :=
  (List.range (size n head tail)).map fun i => cell ((head + i) % n)

/-- The cells with `b` written from `at'` on. -/
def write (cell : Nat → α) (at' : Nat) (b : List α) : Nat → α := fun j =>
  if at' ≤ j then (b[j - at']?).getD (cell j) else cell j

theorem mod_wrap {x : Nat} (hx : x < 2 * n) : x % n = if x < n then x else x - n := by
  split
  · next h => exact Nat.mod_eq_of_lt h
  · next h => rw [Nat.mod_eq_sub_mod (not_lt.mp h), Nat.mod_eq_of_lt (by omega)]

theorem size_eq (hhead : head < n) (htail : tail < n) :
    size n head tail = if tail < head then tail + n - head else tail - head := by
  unfold size
  rw [mod_wrap (by omega)]
  split <;> split <;> omega

theorem size_eq_zero_iff (hhead : head < n) (htail : tail < n) : size n head tail = 0 ↔ head = tail := by
  rw [size_eq hhead htail]
  split <;> omega

theorem content_self (hhead : head < n) : content n head head cell = [] := by
  unfold content
  rw [(size_eq_zero_iff hhead hhead).mpr rfl]
  rfl

theorem length_content : (content n head tail cell).length = size n head tail := by
  simp [content]

theorem getElem_content {i : Nat} (hi : i < (content n head tail cell).length) :
    (content n head tail cell)[i] = cell ((head + i) % n) := by
  simp only [content, List.getElem_map, List.getElem_range]

/-! ### What the two ends do -/

/-- The first cell is taken off. -/
theorem content_pop (hhead : head < n) (htail : tail < n) (hne : head ≠ tail) :
    content n head tail cell = cell head :: content n ((head + 1) % n) tail cell := by
  have hnext : (head + 1) % n < n := Nat.mod_lt _ (by omega)
  have hsize : size n head tail = size n ((head + 1) % n) tail + 1 := by
    rw [size_eq hhead htail, size_eq hnext htail, mod_wrap (show head + 1 < 2 * n by omega)]
    split <;> split <;> split <;> omega
  unfold content
  rw [hsize, List.range_succ_eq_map, List.map_cons, List.map_map, Nat.add_zero, Nat.mod_eq_of_lt hhead]
  congr 1
  refine List.map_congr_left fun i _ => congrArg cell ?_
  simp only [Nat.succ_eq_add_one]
  rw [Nat.mod_add_mod]
  ring_nf

theorem write_of_lt {i j : Nat} (h : j < i) : write cell i b j = cell j := if_neg (by omega)

theorem write_of_le {i j : Nat} (h : i + b.length ≤ j) : write cell i b j = cell j := by
  unfold write
  rw [List.getElem?_eq_none (by omega)]
  split <;> rfl

theorem write_add {i j : Nat} (h : j < b.length) : write cell i b (i + j) = b[j] := by
  unfold write
  rw [if_pos (by omega), Nat.add_sub_cancel_left, List.getElem?_eq_getElem h, Option.getD_some]

/-- Cells are filled from the tail on, in one piece and with one cell left. -/
theorem content_fill (hhead : head < n) (htail : tail < n) (hend : tail + b.length ≤ n)
    (hfree : size n head tail + b.length < n) :
    content n head ((tail + b.length) % n) (write cell tail b) = content n head tail cell ++ b := by
  have hnext : (tail + b.length) % n < n := Nat.mod_lt _ (by omega)
  have hold := size_eq hhead htail
  have hsize : size n head ((tail + b.length) % n) = size n head tail + b.length := by
    rw [size_eq hhead hnext, mod_wrap (show tail + b.length < 2 * n by omega)]
    split at hold <;> split <;> split <;> omega
  refine List.ext_getElem (by rw [List.length_append, length_content, length_content, hsize]) fun i hi _ => ?_
  rw [length_content, hsize] at hi
  have hpos := mod_wrap (show head + i < 2 * n by omega)
  rw [getElem_content]
  rcases lt_or_ge i (size n head tail) with hin | hout
  · rw [List.getElem_append_left (length_content.symm ▸ hin), getElem_content]
    rcases lt_or_ge ((head + i) % n) tail with hlt | hge
    · exact write_of_lt hlt
    · refine write_of_le ?_
      split at hold <;> split at hpos <;> omega
  · have hat : (head + i) % n = tail + (i - size n head tail) := by
      split at hold <;> split at hpos <;> omega
    rw [List.getElem_append_right (length_content.symm ▸ hout)]
    simp only [length_content]
    rw [hat, write_add (show i - size n head tail < b.length by omega)]

end RingBuffer

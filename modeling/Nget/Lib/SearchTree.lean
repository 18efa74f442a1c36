import Mathlib

/-! Binary search trees whose nodes hold chains of elements with one key: an element with a new key becomes a node, one with a key
    that is there goes to the end of the chain. Insertion and search go the same way down, so what a search finds after an
    insertion is known without an ordering of the tree (`chain_search_insert`). -/

inductive SearchTree (α : Type) where
  | leaf
  | node (left : SearchTree α) (head : α) (same : List α) (right : SearchTree α)

namespace SearchTree
variable {α κ ι : Type}

/-- How a key stands to the one that is searched for. -/
def side [LinearOrder κ] (k x : κ) : Ordering := compare x k

theorem side_eq_lt [LinearOrder κ] {k x : κ} : side k x = .lt ↔ x < k := compare_lt_iff_lt

theorem side_eq_gt [LinearOrder κ] {k x : κ} : side k x = .gt ↔ k < x := compare_gt_iff_gt

theorem side_eq_eq [LinearOrder κ] {k x : κ} : side k x = .eq ↔ x = k := compare_eq_iff_eq

/-- The elements of the node at the root. -/
def chain : SearchTree α → List α
  | leaf => []
  | node _ head same _ => head :: same

/-- The subtree where the search ends. `side` says how the head of a node stands to what is searched for. -/
def search (side : α → Ordering) : SearchTree α → SearchTree α
  | leaf => leaf
  | node left head same right =>
    match side head with
    | .lt => search side right
    | .gt => search side left
    | .eq => node left head same right

/-- An element is inserted. `side` says how the head of a node stands to it. -/
def insert (side : α → Ordering) (x : α) : SearchTree α → SearchTree α
  | leaf => node leaf x [] leaf
  | node left head same right =>
    match side head with
    | .lt => node left head same (insert side x right)
    | .gt => node (insert side x left) head same right
    | .eq => node left head (same ++ [x]) right

section Key
variable [LinearOrder κ] (key : α → κ)

theorem chain_search_insert (k : κ) (x : α) (t : SearchTree α) :
    ((t.insert (fun y => side (key x) (key y)) x).search fun y => side k (key y)).chain =
      (t.search fun y => side k (key y)).chain ++ if key x = k then [x] else [] := by
  induction t with
  | leaf =>
    rw [insert]
    cases hside : side k (key x) with
    | lt => rw [if_neg (ne_of_lt (side_eq_lt.mp hside))]; simp only [search, hside]; rfl
    | gt => rw [if_neg (ne_of_gt (side_eq_gt.mp hside))]; simp only [search, hside]; rfl
    | eq => rw [if_pos (side_eq_eq.mp hside)]; simp only [search, hside]; rfl
  | node left y same right ihleft ihright =>
    rw [insert]
    -- The way of `x` is the way of `k` where the two have one key; elsewhere they part here, or the chain is not that of `k`.
    cases hx : side (key x) (key y) <;> cases hk : side k (key y) <;> simp only [search, hk, ihleft, ihright]
    case lt.eq =>
      have hne : key x ≠ k := by
        rw [← side_eq_eq.mp hk]
        exact ne_of_gt (side_eq_lt.mp hx)
      rw [if_neg hne, List.append_nil]; rfl
    case lt.gt =>
      have hne : key x ≠ k := ne_of_gt ((side_eq_gt.mp hk).trans (side_eq_lt.mp hx))
      rw [if_neg hne, List.append_nil]
    case gt.lt =>
      have hne : key x ≠ k := ne_of_lt ((side_eq_gt.mp hx).trans (side_eq_lt.mp hk))
      rw [if_neg hne, List.append_nil]
    case gt.eq =>
      have hne : key x ≠ k := by
        rw [← side_eq_eq.mp hk]
        exact ne_of_lt (side_eq_gt.mp hx)
      rw [if_neg hne, List.append_nil]; rfl
    case eq.lt =>
      rw [← side_eq_eq.mp hx, if_neg (ne_of_lt (side_eq_lt.mp hk)), List.append_nil]
    case eq.gt =>
      rw [← side_eq_eq.mp hx, if_neg (ne_of_gt (side_eq_gt.mp hk)), List.append_nil]
    case eq.eq =>
      rw [← side_eq_eq.mp hx, if_pos (side_eq_eq.mp hk)]; rfl

/-- A search by a part of the key that keeps the order, and from there one by the whole key, ends where the search by the whole key
    does. -/
theorem search_search [LinearOrder ι] {part : κ → ι} (hpart : Monotone part) (k : κ) (t : SearchTree α) :
    ((t.search fun y => side (part k) (part (key y))).search fun y => side k (key y)) =
      t.search fun y => side k (key y) := by
  induction t with
  | leaf => rfl
  | node left y same right ihleft ihright =>
    cases hside : side (part k) (part (key y)) with
    | lt =>
      have hlt : side k (key y) = .lt := side_eq_lt.mpr (hpart.reflect_lt (side_eq_lt.mp hside))
      simp only [search, hside, hlt, ihright]
    | gt =>
      have hgt : side k (key y) = .gt := side_eq_gt.mpr (hpart.reflect_lt (side_eq_gt.mp hside))
      simp only [search, hside, hgt, ihleft]
    | eq => rw [search, hside]

end Key
end SearchTree

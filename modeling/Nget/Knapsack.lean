import Mathlib

/-! `knapsack.cc`: the 0-1 knapsack, and the least size that reaches a value. -/

namespace Nget

/-- The arrays `V` and `best`, with an entry for each size up to the target. -/
structure KnapsackTable where
  V : List Int
  best : List (List Nat)

/-- The loop over the sizes for item `i`, from size `j - 1` down to the size of the item. -/
def knapsackItem (i : Nat) (value size : Int) : Nat → KnapsackTable → KnapsackTable
  | 0, t => t
  | j + 1, t =>
    if (j : Int) < size then t
    else
      let othersol := t.V.getD (j - size).toNat 0 + value
      if t.V.getD j 0 < othersol then knapsackItem i value size j ⟨t.V.set j othersol, t.best.set j (t.best.getD j [] ++ [i])⟩
      else knapsackItem i value size j t

/-- The loop over the items, from item `i` on. -/
def knapsackItems (targetSize : Nat) : Nat → List Int → List Int → KnapsackTable → KnapsackTable
  | i, value :: values, size :: sizes, t =>
    knapsackItems targetSize (i + 1) values sizes (knapsackItem i value size (targetSize + 1) t)
  | _, _, _, t => t

/-- The loop that finds the items of the solution, from size `j` down; `last` is the item found last. It gives the
    items, and the size at which it ends. Every round finds an item below the one before, so there are no more rounds
    than items. -/
def knapsackResult (sizes : List Int) (best : List (List Nat)) : Nat → Int → Nat → List Nat × Int
  | 0, j, _ => ([], j)
  | rounds + 1, j, last =>
    if 0 < j then
      match (best.getD j.toNat []).reverse.find? (· < last) with
      | some b =>
        let (result, j) := knapsackResult sizes best rounds (j - sizes.getD b 0) b
        (b :: result, j)
      | none => ([], j)
    else ([], j)

/-- What `knapsack` returns and fills in; `left` is the size that its first final assertion is about. The second one
    says that the items of the result sum to the value. -/
structure KnapsackSolution where
  value : Int
  result : List Nat
  left : Int

/-- What `knapsack` computes in its arrays; `last` starts above every index, as `INT_MAX` does. -/
def knapsackFilled (values sizes : List Int) (targetSize : Nat) : KnapsackSolution :=
  let t := knapsackItems targetSize 0 values sizes ⟨List.replicate (targetSize + 1) 0, List.replicate (targetSize + 1) []⟩
  let (result, left) := knapsackResult sizes t.best values.length targetSize values.length
  ⟨t.V.getD targetSize 0, result, left⟩

/-- `knapsack`, for a target that is not negative. The length of its arrays is `target_size + 1`, computed in an `int`;
    where it is negative `new[]` throws, and nothing is returned. The sums of the values and of the sizes are within an
    `int`, so what is computed in the arrays is exact. -/
def knapsack (values sizes : List Int) (targetSize : Int32) : Option KnapsackSolution :=
  if targetSize + 1 < 0 then none else some (knapsackFilled values sizes targetSize.toInt.toNat)

/-- `knapsack_minsize`, for a target that is positive: the size that it returns and the items that it fills in. What it
    gives `knapsack` as its target is below the sum of the values, so the arrays are made there. -/
def knapsackMinsize (values sizes : List Int) (targetValue : Int) : Int × List Nat :=
  let targetprime := values.sum - targetValue
  let prime := if 0 ≤ targetprime then knapsackFilled sizes values targetprime.toNat else ⟨0, [], 0⟩
  (sizes.sum - prime.value, (List.range values.length).filter fun i => i ∉ prime.result)

end Nget

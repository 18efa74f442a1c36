import Nget.Lib.ZeroOne
import Nget.Knapsack

/-! `knapsack` is optimal: its row of values holds the optimum of the items seen so far for each size, its lists of
    items hold those that improved the value of a size, and what is read back from them is a choice of that value. -/

namespace Nget
open ZeroOne Finset
variable {values sizes : List Int} {targetSize i j c : Nat} {t t' : KnapsackTable} {value size : Int}

def item (xs : List Int) (i : Nat) : Int := xs.getD i 0

/-- What the arrays hold for the size `c` when `i` items have been dealt with. -/
structure Entry (values sizes : List Int) (i : Nat) (t : KnapsackTable) (c : Nat) : Prop where
  V : t.V.getD c 0 = optimum (item values) (item sizes) i c
  best : t.best.getD c [] = (List.range i).filter fun k => Improves (item values) (item sizes) c k

/-- The arrays have an entry for each size up to the target. -/
structure Sized (targetSize : Nat) (t : KnapsackTable) : Prop where
  V : t.V.length = targetSize + 1
  best : t.best.length = targetSize + 1

/-- The arrays in the loop over the sizes: those from `j` on are dealt with for item `i`. -/
structure Passed (values sizes : List Int) (targetSize i j : Nat) (t : KnapsackTable) : Prop where
  sized : Sized targetSize t
  todo : ∀ c < j, Entry values sizes i t c
  done : ∀ c, j ≤ c → c ≤ targetSize → Entry values sizes (i + 1) t c

theorem filter_range_succ (i : Nat) (p : Nat → Bool) :
    (List.range (i + 1)).filter p = (List.range i).filter p ++ if p i then [i] else [] := by
  rw [List.range_succ, List.filter_append, List.filter_singleton]
  cases p i <;> rfl

theorem Entry.succ_of_not (h : Entry values sizes i t c) (hnot : ¬Improves (item values) (item sizes) c i) :
    Entry values sizes (i + 1) t c where
  V := h.V.trans (optimum_succ_of_not hnot).symm
  best := by rw [h.best, filter_range_succ, decide_eq_false hnot, if_neg Bool.false_ne_true, List.append_nil]

theorem getD_set_self {α : Type} {l : List α} {x d : α} (hi : i < l.length) : (l.set i x).getD i d = x := by
  simp [hi]

theorem getD_set_ne {α : Type} {l : List α} {x d : α} (hij : i ≠ j) : (l.set i x).getD j d = l.getD j d := by
  simp [List.getD_eq_getElem?_getD, List.getElem?_set_ne hij]

theorem Entry.set_ne (h : Entry values sizes i t c) (hne : j ≠ c) {v : Int} {b : List Nat} :
    Entry values sizes i ⟨t.V.set j v, t.best.set j b⟩ c :=
  ⟨(getD_set_ne hne).trans h.V, (getD_set_ne hne).trans h.best⟩

/-- The loop over the sizes takes the entries of the item before to those of item `i`. -/
theorem knapsackItem_passed (hpos : 0 < item sizes i) : ∀ (j : Nat) (t : KnapsackTable), j ≤ targetSize + 1 →
    Passed values sizes targetSize i j t →
    Passed values sizes targetSize i 0 (knapsackItem i (item values i) (item sizes i) j t)
  | 0, _, _, h => h
  | j + 1, t, hj, h => by
    have hentry := h.todo j j.lt_succ_self
    unfold knapsackItem
    split
    · next hfit =>
      -- The sizes below that of the item are left as they are.
      refine ⟨h.sized, fun c hc => absurd hc (Nat.not_lt_zero c), fun c _ hct => ?_⟩
      rcases Nat.lt_or_ge c (j + 1) with hcj | hcj
      · refine (h.todo c hcj).succ_of_not fun himp => ?_
        have := (improves_iff.mp himp).1
        omega
      · exact h.done c hcj hct
    · next hfit =>
      have hfit := not_lt.mp hfit
      have hrest : ((j : Int) - item sizes i).toNat < j + 1 := by omega
      have hother := (h.todo _ hrest).V
      rw [Int.toNat_of_nonneg (by omega)] at hother
      dsimp only
      rw [hother, hentry.V]
      have himp := @improves_iff Int Int _ _ _ _ (item values) (item sizes) i (j : Int)
      split
      · next hlt =>
        have himp := himp.mpr ⟨hfit, hlt⟩
        have hV : j < t.V.length := h.sized.V ▸ hj
        have hbest : j < t.best.length := h.sized.best ▸ hj
        have hself : Entry values sizes (i + 1)
          ⟨t.V.set j (optimum (item values) (item sizes) i (j - item sizes i) + item values i),
            t.best.set j (t.best.getD j [] ++ [i])⟩ j := by
          refine ⟨?_, ?_⟩
          · rw [getD_set_self hV, himp.optimum_succ]
          · rw [getD_set_self hbest, hentry.best, filter_range_succ, decide_eq_true himp, if_pos rfl]
        refine knapsackItem_passed hpos j _ (Nat.le_of_succ_le hj) ⟨⟨?_, ?_⟩, fun c hc => ?_, fun c hjc hct => ?_⟩
        · rw [List.length_set, h.sized.V]
        · rw [List.length_set, h.sized.best]
        · exact (h.todo c (Nat.lt_succ_of_lt hc)).set_ne hc.ne'
        · rcases hjc.lt_or_eq with hlt | rfl
          · exact (h.done c hlt hct).set_ne hlt.ne
          · exact hself
      · next hge =>
        have hnot : ¬Improves (item values) (item sizes) (j : Int) i := fun h => hge (himp.mp h).2
        refine knapsackItem_passed hpos j t (Nat.le_of_succ_le hj) ⟨h.sized, fun c hc => h.todo c (by omega),
          fun c hjc hct => ?_⟩
        rcases hjc.lt_or_eq with hlt | rfl
        · exact h.done c hlt hct
        · exact hentry.succ_of_not hnot

/-- The arrays when `i` items have been dealt with. -/
structure Table (values sizes : List Int) (targetSize i : Nat) (t : KnapsackTable) : Prop where
  sized : Sized targetSize t
  entry : ∀ c ≤ targetSize, Entry values sizes i t c

/-- The loop over the items, from item `i` on. -/
theorem knapsackItems_table : ∀ (vs ss : List Int) (i : Nat) (t : KnapsackTable), vs = values.drop i → ss = sizes.drop i →
    vs.length = ss.length → (∀ s ∈ ss, 0 < s) → Table values sizes targetSize i t →
    Table values sizes targetSize (i + vs.length) (knapsackItems targetSize i vs ss t)
  | [], [], _, _, _, _, _, _, h => h
  | v :: vs, s :: ss, i, t, hv, hs, hlen, hpos, h => by
    have hval : item values i = v := by
      rw [item, List.getD_eq_getElem?_getD, ← List.head?_drop, ← hv]
      rfl
    have hsize : item sizes i = s := by
      rw [item, List.getD_eq_getElem?_getD, ← List.head?_drop, ← hs]
      rfl
    have hpass := knapsackItem_passed (hsize.symm ▸ hpos s List.mem_cons_self) (targetSize + 1) t le_rfl
      ⟨h.sized, fun c hc => h.entry c (Nat.le_of_lt_succ hc), fun c hc hct => absurd hc (by omega)⟩
    rw [hval, hsize] at hpass
    have hnext : Table values sizes targetSize (i + 1) (knapsackItem i v s (targetSize + 1) t) :=
      ⟨hpass.sized, fun c hc => hpass.done c (Nat.zero_le c) hc⟩
    have hv' : vs = values.drop (i + 1) := by rw [← List.drop_drop, ← hv, List.drop_one, List.tail_cons]
    have hs' : ss = sizes.drop (i + 1) := by rw [← List.drop_drop, ← hs, List.drop_one, List.tail_cons]
    have hrest := knapsackItems_table vs ss (i + 1) _ hv' hs' (Nat.succ.inj hlen)
      (fun x hx => hpos x (List.mem_cons_of_mem s hx)) hnext
    rw [Nat.add_assoc, Nat.add_comm 1] at hrest
    exact hrest

theorem table_start :
    Table values sizes targetSize 0 ⟨List.replicate (targetSize + 1) 0, List.replicate (targetSize + 1) []⟩ where
  sized := ⟨List.length_replicate, List.length_replicate⟩
  entry c hc := ⟨by simp [Nat.lt_succ_of_le hc, optimum], by simp [Nat.lt_succ_of_le hc]⟩

theorem sum_item (xs : List Int) : ∑ i ∈ range xs.length, item xs i = xs.sum := by
  rw [sum_range, ← Fin.sum_univ_getElem]
  exact sum_congr rfl fun i _ => List.getD_eq_getElem _ _ i.isLt

/-- No value that the loops compute exceeds the sum of all values, so that the sums stay within an `int` when that does. -/
theorem Entry.othersol_le (h : Entry values sizes i t c) (hi : i < values.length) (hv : ∀ v ∈ values, 0 ≤ v) :
    t.V.getD c 0 + item values i ≤ values.sum := by
  have hitem : ∀ k < values.length, 0 ≤ item values k := fun k hk => by
    rw [item, List.getD_eq_getElem _ _ hk]
    exact hv _ (List.getElem_mem hk)
  calc t.V.getD c 0 + item values i
      ≤ ∑ k ∈ range i, item values k + item values i := by
        rw [h.V]
        exact Int.add_le_add_right (optimum_le_sum fun k hk => hitem k (hk.trans hi)) _
    _ = ∑ k ∈ range (i + 1), item values k := (sum_range_succ _ _).symm
    _ ≤ ∑ k ∈ range values.length, item values k :=
        sum_le_sum_of_subset_of_nonneg (range_mono hi) fun k hk _ => hitem k (mem_range.mp hk)
    _ = values.sum := sum_item values

/-! ### The items of the solution -/

section
variable {p : Nat → Bool} {n last b : Nat}

/-- The item that is found is the last one before `last` that improved the value. -/
theorem find_eq_some (hn : last ≤ n) (h : ((List.range n).filter p).reverse.find? (· < last) = some b) :
    b < last ∧ p b = true ∧ ∀ k, b < k → k < last → p k = false := by
  obtain ⟨hb, before, after, hsplit, hbefore⟩ := List.find?_eq_some_iff_append.mp h
  have hmem : ∀ k, k ∈ before ++ b :: after ↔ k < n ∧ p k = true := fun k => by
    rw [← hsplit, List.mem_reverse, List.mem_filter, List.mem_range]
  have hsorted : (before ++ b :: after).Pairwise (· > ·) := by
    rw [← hsplit, List.pairwise_reverse]
    exact List.pairwise_lt_range.filter p
  obtain ⟨-, hafter, -⟩ := List.pairwise_append.mp hsorted
  refine ⟨of_decide_eq_true hb, ((hmem b).mp (by simp)).2, fun k hbk hk => ?_⟩
  by_contra hp
  rcases List.mem_append.mp ((hmem k).mpr ⟨hk.trans_le hn, by simpa using hp⟩) with hmem | hmem
  · simpa [hk] using hbefore k hmem
  · rcases List.mem_cons.mp hmem with rfl | hmem
    · exact lt_irrefl k hbk
    · exact lt_asymm hbk ((List.pairwise_cons.mp hafter).1 k hmem)

theorem find_eq_none (hn : last ≤ n) (h : ((List.range n).filter p).reverse.find? (· < last) = none) :
    ∀ k < last, p k = false := by
  intro k hk
  by_contra hp
  have hmem : k ∈ ((List.range n).filter p).reverse := by simpa [hk.trans_le hn] using hp
  simpa [hk] using List.find?_eq_none.mp h k hmem

end

/-- What the loop that finds the items gives, from the size `j` with the items below `last` left. -/
structure Found (values sizes : List Int) (last : Nat) (j : Int) (found : List Nat × Int) : Prop where
  below : ∀ b ∈ found.1, b < last
  sorted : found.1.Pairwise (· > ·)
  value : (found.1.map (item values)).sum = optimum (item values) (item sizes) last j
  size : (found.1.map (item sizes)).sum + found.2 = j
  left : 0 ≤ found.2

/-- No item is found where the items left improve nothing. -/
theorem Found.nil {last : Nat} {j : Int} (hj : 0 ≤ j) (hopt : optimum (item values) (item sizes) last j = 0) :
    Found values sizes last j ([], j) where
  below := by simp
  sorted := List.Pairwise.nil
  value := hopt.symm
  size := by simp
  left := hj

/-- The loop reads back a choice of the items below `last`, and has a round for each of them. -/
theorem knapsackResult_found {n : Nat} {best : List (List Nat)} (hpos : ∀ i < n, 0 < item sizes i)
    (hbest : ∀ c ≤ targetSize, best.getD c [] = (List.range n).filter fun k => Improves (item values) (item sizes) c k) :
    ∀ (rounds : Nat) (j : Int) (last : Nat), last ≤ rounds → last ≤ n → 0 ≤ j → j ≤ targetSize →
      Found values sizes last j (knapsackResult sizes best rounds j last)
  | 0, j, last, hrounds, _, hj, _ => by
    obtain rfl : last = 0 := Nat.le_zero.mp hrounds
    exact Found.nil hj rfl
  | rounds + 1, j, last, hrounds, hn, hj, hjt => by
    have hjnat : ((j.toNat : Nat) : Int) = j := Int.toNat_of_nonneg hj
    have hentry := hbest j.toNat (by omega)
    rw [hjnat] at hentry
    unfold knapsackResult
    split
    · next hjpos =>
      rw [hentry]
      split
      · next b hfind =>
        obtain ⟨hb, himp, hmore⟩ := find_eq_some hn hfind
        have himp : Improves (item values) (item sizes) j b := of_decide_eq_true himp
        have hfit := (improves_iff.mp himp).1
        have hsize := hpos b (hb.trans_le hn)
        have hopt : optimum (item values) (item sizes) last j =
            optimum (item values) (item sizes) b (j - item sizes b) + item values b := by
          rw [← himp.optimum_succ]
          exact optimum_eq_of_not hb fun i hbi hi => of_decide_eq_false (hmore i hbi hi)
        have hrest := knapsackResult_found hpos hbest rounds (j - item sizes b) b (by omega) (hb.le.trans hn)
          (by omega) (by omega)
        change Found values sizes last j
          (b :: (knapsackResult sizes best rounds (j - item sizes b) b).1,
            (knapsackResult sizes best rounds (j - item sizes b) b).2)
        obtain ⟨hbelow, hsorted, hvalue, hsum, hleft⟩ := hrest
        refine ⟨fun k hk => ?_, List.pairwise_cons.mpr ⟨hbelow, hsorted⟩, ?_, ?_, hleft⟩
        · rcases List.mem_cons.mp hk with rfl | hk
          · exact hb
          · exact (hbelow k hk).trans hb
        · rw [List.map_cons, List.sum_cons, hvalue, hopt, add_comm]
        · rw [List.map_cons, List.sum_cons, add_assoc, hsum]
          exact add_sub_cancel _ _
      · next hfind =>
        have hnone := find_eq_none hn hfind
        exact Found.nil hj (optimum_eq_of_not (Nat.zero_le last) fun i _ hi => of_decide_eq_false (hnone i hi))
    · next hzero =>
      obtain rfl : j = 0 := le_antisymm (not_lt.mp hzero) hj
      exact Found.nil hj (optimum_zero fun i hi => hpos i (hi.trans_le hn))

/-! ### The solution -/

theorem item_pos (hs : ∀ x ∈ sizes, 0 < x) : ∀ i < sizes.length, 0 < item sizes i := fun i hi => by
  rw [item, List.getD_eq_getElem _ _ hi]
  exact hs _ (List.getElem_mem hi)

theorem knapsackItems_all (hlen : values.length = sizes.length) (hs : ∀ x ∈ sizes, 0 < x) :
    Table values sizes targetSize values.length
      (knapsackItems targetSize 0 values sizes ⟨List.replicate (targetSize + 1) 0, List.replicate (targetSize + 1) []⟩) := by
  have htable := knapsackItems_table values sizes 0 _ rfl rfl hlen hs (@table_start values sizes targetSize)
  rwa [Nat.zero_add] at htable

/-- The value is the greatest total of the choices whose total size is within the target, the index set is such a choice
    of that value, and the assertions at the end of `knapsack` hold. -/
structure KnapsackSolution.Optimal (values sizes : List Int) (targetSize : Nat) (k : KnapsackSolution) : Prop where
  greatest : IsGreatest {v | ∃ s : Finset Nat, s ⊆ range values.length ∧ ∑ i ∈ s, item sizes i ≤ targetSize ∧
    ∑ i ∈ s, item values i = v} k.value
  indices : k.result.toFinset ⊆ range values.length
  fits : ∑ i ∈ k.result.toFinset, item sizes i ≤ targetSize
  worth : ∑ i ∈ k.result.toFinset, item values i = k.value
  assertLeft : 0 ≤ k.left
  assertValue : (k.result.map (item values)).sum = k.value

theorem knapsackFilled_optimal (hlen : values.length = sizes.length) (hs : ∀ x ∈ sizes, 0 < x) :
    (knapsackFilled values sizes targetSize).Optimal values sizes targetSize := by
  obtain ⟨t, ht⟩ : ∃ t, knapsackItems targetSize 0 values sizes
      ⟨List.replicate (targetSize + 1) 0, List.replicate (targetSize + 1) []⟩ = t := ⟨_, rfl⟩
  have htable := @knapsackItems_all values sizes targetSize hlen hs
  rw [ht] at htable
  have hpos : ∀ i < values.length, 0 < item sizes i := fun i hi => item_pos hs i (hlen ▸ hi)
  have hfound := knapsackResult_found hpos (fun c hc => (htable.entry c hc).best) values.length targetSize values.length
    le_rfl le_rfl (Int.natCast_nonneg _) le_rfl
  have hvalue := (htable.entry targetSize le_rfl).V
  have hk : knapsackFilled values sizes targetSize = ⟨t.V.getD targetSize 0,
      (knapsackResult sizes t.best values.length targetSize values.length).1,
      (knapsackResult sizes t.best values.length targetSize values.length).2⟩ := by
    rw [← ht]
    rfl
  rw [hk]
  generalize knapsackResult sizes t.best values.length targetSize values.length = found at hfound ⊢
  obtain ⟨result, left⟩ := found
  obtain ⟨hbelow, hsorted, hsum, hsize, hleft⟩ := hfound
  dsimp only at *
  have hnodup : result.Nodup := hsorted.imp fun h => h.ne'
  rw [← List.sum_toFinset _ hnodup] at hsize
  refine ⟨?_, fun i hi => mem_range.mpr (hbelow i (List.mem_toFinset.mp hi)), ?_, ?_, hleft, hsum.trans hvalue.symm⟩
  · have hgreatest := @isGreatest_optimum Int Int _ _ _ _ (item values) (item sizes) values.length (targetSize : Int) _ _
      (fun i hi => (hpos i hi).le) (Int.natCast_nonneg targetSize)
    rw [hvalue]
    simpa only [Fits, and_assoc] using hgreatest
  · exact (le_add_of_nonneg_right hleft).trans hsize.le
  · rw [List.sum_toFinset _ hnodup, hsum, hvalue]

/-! ### The targets whose arrays can be made -/

/-- The length of the arrays is negative for the largest `int` alone. -/
theorem succ_neg_iff {targetSize : Int32} (htarget : 0 ≤ targetSize) :
    targetSize + 1 < 0 ↔ ¬targetSize < Int32.maxValue := by
  have hlow : (0 : Int) ≤ targetSize.toInt := Int32.le_iff_toInt_le.mp htarget
  have hhigh := targetSize.toInt_lt
  rw [Int32.lt_iff_toInt_lt, Int32.lt_iff_toInt_lt, Int32.toInt_add]
  have hmax : Int32.maxValue.toInt = 2147483647 := rfl
  have hone : (1 : Int32).toInt = 1 := rfl
  have hzero : (0 : Int32).toInt = 0 := rfl
  rw [hmax, hone, hzero, Int.bmod_def]
  split <;> omega

/-- `knapsack` returns the optimum exactly for the targets below the largest `int`. -/
theorem knapsack_optimal_iff {targetSize : Int32} (hlen : values.length = sizes.length) (hs : ∀ x ∈ sizes, 0 < x)
    (htarget : 0 ≤ targetSize) :
    (∃ k, knapsack values sizes targetSize = some k ∧ k.Optimal values sizes targetSize.toInt.toNat) ↔
      targetSize < Int32.maxValue := by
  unfold knapsack
  constructor
  · rintro ⟨k, hk, -⟩
    by_contra hlarge
    rw [if_pos ((succ_neg_iff htarget).mpr hlarge)] at hk
    exact absurd hk (Option.some_ne_none k).symm
  · intro hlt
    rw [if_neg fun hneg => (succ_neg_iff htarget).mp hneg hlt]
    exact ⟨_, rfl, knapsackFilled_optimal hlen hs⟩

/-- Five items and the target of the test suite. -/
theorem knapsack_optimal_test :
    (∃ k, knapsack [5, 3, 4, 4, 8] [5, 4, 4, 4, 10] 10 = some k ∧ k.Optimal [5, 3, 4, 4, 8] [5, 4, 4, 4, 10] 10) ↔
      (10 : Int32) < Int32.maxValue :=
  knapsack_optimal_iff (by decide) (by decide) (by decide)

/-- With the largest `int` as the target, two items that fit have no optimum returned. -/
theorem knapsack_largest_target :
    ¬∃ k, knapsack [3, 4] [1, 2] Int32.maxValue = some k ∧ k.Optimal [3, 4] [1, 2] Int32.maxValue.toInt.toNat := by
  rintro ⟨k, hk, -⟩
  have hnone : knapsack [3, 4] [1, 2] Int32.maxValue = none := by decide
  rw [hnone] at hk
  exact absurd hk (Option.some_ne_none k).symm

/-- The target that `knapsack_minsize` gives is below the sum of the values, so its arrays are made. -/
theorem knapsack_minsize_target {target : Int} (htarget : 0 < target) (hsum : values.sum ≤ Int32.maxValue.toInt)
    (hrest : 0 ≤ values.sum - target) :
    knapsack sizes values (Int32.ofInt (values.sum - target)) =
      some (knapsackFilled sizes values (values.sum - target).toNat) := by
  have hmax : Int32.maxValue.toInt = 2147483647 := rfl
  have hint : (Int32.ofInt (values.sum - target)).toInt = values.sum - target :=
    Int32.toInt_ofInt_of_le (by omega) (by omega)
  have hpos : (0 : Int32) ≤ Int32.ofInt (values.sum - target) := Int32.le_iff_toInt_le.mpr (by rw [hint]; exact hrest)
  unfold knapsack
  rw [if_neg fun hneg => (succ_neg_iff hpos).mp hneg (Int32.lt_iff_toInt_lt.mpr (by omega)), hint]

/-! ### The least size -/

/-- The items of `knapsack_minsize` reach the target, their size is what it returns and the least with which that is
    possible, and none of them can be dropped. -/
structure LeastCover (values sizes : List Int) (target : Int) (r : Int × List Nat) : Prop where
  indices : r.2.toFinset ⊆ range values.length
  reaches : target ≤ ∑ i ∈ r.2.toFinset, item values i
  size : ∑ i ∈ r.2.toFinset, item sizes i = r.1
  least : IsLeast {c | ∃ s ⊆ range values.length, target ≤ ∑ i ∈ s, item values i ∧ ∑ i ∈ s, item sizes i = c} r.1
  minimal : ∀ i ∈ r.2, ∑ k ∈ r.2.toFinset.erase i, item values k < target

theorem toFinset_range_filter (n : Nat) (l : List Nat) :
    ((List.range n).filter fun i => i ∉ l).toFinset = range n \ l.toFinset := by
  ext i
  simp

theorem knapsackMinsize_all {target : Int} (h : values.sum < target) :
    knapsackMinsize values sizes target = (sizes.sum, List.range values.length) := by
  unfold knapsackMinsize
  dsimp only
  rw [if_neg (by omega)]
  simp

theorem LeastCover.of_minsize {target : Int} (hlen : values.length = sizes.length) (hv : ∀ v ∈ values, 0 < v)
    (hs : ∀ s ∈ sizes, 0 < s) (h : target ≤ values.sum) :
    LeastCover values sizes target (knapsackMinsize values sizes target) := by
  have hrest : (((values.sum - target).toNat : Nat) : Int) = ∑ i ∈ range values.length, item values i - target := by
    rw [sum_item]
    omega
  have hopt := @knapsackFilled_optimal sizes values (values.sum - target).toNat hlen.symm hv
  unfold knapsackMinsize
  dsimp only
  rw [if_pos (by omega)]
  generalize knapsackFilled sizes values (values.sum - target).toNat = k at hopt ⊢
  obtain ⟨⟨-, hbest⟩, hindices, hfits, hworth, -, -⟩ := hopt
  rw [hrest] at hfits
  rw [← hlen] at hindices
  have hleft : Fits (item values) values.length (∑ i ∈ range values.length, item values i - target) k.result.toFinset :=
    ⟨hindices, hfits⟩
  have hgreatest : ∀ t, Fits (item values) values.length (∑ i ∈ range values.length, item values i - target) t →
      ∑ i ∈ t, item sizes i ≤ ∑ i ∈ k.result.toFinset, item sizes i := fun t ht => by
    rw [hworth]
    exact hbest ⟨t, hlen ▸ ht.1, hrest ▸ ht.2, rfl⟩
  have hcover := (covers_sdiff_iff hindices).mpr hleft
  have hleast := isLeast_cover hleft hgreatest
  have hsize : ∑ i ∈ range values.length \ k.result.toFinset, item sizes i = sizes.sum - k.value := by
    rw [← sum_item sizes, ← hworth, ← hlen, ← sum_sdiff hindices, add_sub_cancel_right]
  have hset := toFinset_range_filter values.length k.result
  refine ⟨?_, ?_, ?_, ?_, fun i hi => ?_⟩
  · rw [hset]
    exact hcover.1
  · rw [hset]
    exact hcover.2
  · rw [hset]
    exact hsize
  · rw [hsize] at hleast
    simpa only [Covers, and_assoc] using hleast
  · rw [hset]
    rw [← List.mem_toFinset, hset] at hi
    have hpos : ∀ i < values.length, 0 < item sizes i := fun i hi => item_pos hs i (hlen ▸ hi)
    exact sum_erase_lt hpos hcover (fun t ht => hleast.2 ⟨t, ht, rfl⟩) hi

end Nget

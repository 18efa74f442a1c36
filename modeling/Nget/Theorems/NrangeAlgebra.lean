import Mathlib
import Nget.Theorems.NrangeCuts

/-! `c_nrange` as an algebra of sets of unsigned longs. A canonical map is fixed by its members, `insert` is
    union, `invert` is complement and `get_total` counts the members modulo `2 ^ 64`. `remove` is difference
    and `clip_to_max_total` keeps the largest members, each but for the maps that its loop misses. -/

namespace Nget
namespace Nrange
variable {r s : Nrange} {l h n num : UInt64} {e : UInt64 × UInt64}

/-! ### The members fix the map -/

/-- A range of a canonical map goes up as far as its numbers' run of members does. -/
theorem Canonical.run_high (hr : r.Canonical) (he : e ∈ r.rlist) (hl : e.2 ≤ l ∧ l ≤ e.1)
    (hrun : ∀ n, l ≤ n → n ≤ h → n ∈ r) : h ≤ e.1 := by
  by_contra hlt
  have hlt := not_le.mp hlt
  have hsucc := succ_toNat hlt
  obtain ⟨b, hb, hlow, hhigh⟩ : e.1 + 1 ∈ r := by
    simp only [UInt64.le_iff_toNat_le, UInt64.lt_iff_toNat_lt] at hl hlt hrun
    exact hrun _ (by omega) (by omega)
  rw [UInt64.le_iff_toNat_le] at hlow hhigh
  have := hr.gap e he b hb (UInt64.lt_iff_toNat_lt.mpr (by omega))
  omega

theorem Canonical.run_low (hr : r.Canonical) (he : e ∈ r.rlist) (hh : e.2 ≤ h ∧ h ≤ e.1)
    (hrun : ∀ n, l ≤ n → n ≤ h → n ∈ r) : e.2 ≤ l := by
  by_contra hlt
  have hlt := not_le.mp hlt
  have hpred := pred_toNat hlt
  obtain ⟨b, hb, hlow, hhigh⟩ : e.2 - 1 ∈ r := by
    simp only [UInt64.le_iff_toNat_le, UInt64.lt_iff_toNat_lt] at hh hlt hrun
    exact hrun _ (by omega) (by omega)
  rw [UInt64.le_iff_toNat_le] at hlow hhigh
  have hle := UInt64.le_iff_toNat_le.mp (hr.low_le e he)
  rcases lt_trichotomy b.1 e.1 with hbe | hbe | hbe
  · have := hr.gap b hb e he hbe
    omega
  · rw [SortedMap.eq_of_mem hb he hbe] at hlow
    omega
  · have := hr.gap e he b hb hbe
    omega

/-- A range of one canonical map is a range of every canonical map with the same members. -/
theorem Canonical.mem_of_same (hr : r.Canonical) (hs : s.Canonical) (hmem : ∀ n, n ∈ r ↔ n ∈ s) (he : e ∈ r.rlist) :
    e ∈ s.rlist := by
  have hle := hr.low_le e he
  obtain ⟨a, ha, halow, hahigh⟩ := (hmem e.2).mp ⟨e, he, le_rfl, hle⟩
  have hhigh : a.1 = e.1 := by
    refine le_antisymm (hr.run_high he ⟨le_rfl, hle⟩ fun n hl hh => ?_) (hs.run_high ha ⟨halow, hahigh⟩ fun n hl hh => ?_)
    · exact (hmem n).mpr ⟨a, ha, halow.trans hl, hh⟩
    · exact (hmem n).mp ⟨e, he, hl, hh⟩
  have hlow : a.2 = e.2 := by
    refine le_antisymm halow (hr.run_low he ⟨hle, le_rfl⟩ fun n hl hh => ?_)
    exact (hmem n).mpr ⟨a, ha, hl, hhigh ▸ hh⟩
  exact Prod.ext hhigh hlow ▸ ha

theorem Canonical.eq_of_same (hr : r.Canonical) (hs : s.Canonical) (hmem : ∀ n, n ∈ r ↔ n ∈ s) : r = s := by
  cases r
  cases s
  exact congrArg _ (SortedMap.ext_mem fun _ => ⟨hr.mem_of_same hs hmem, hs.mem_of_same hr fun n => (hmem n).symm⟩)

/-! ### The number of members -/

theorem ncard_between {N : Nat} : {n : UInt64 | N ≤ n.toNat ∧ n ≤ h}.ncard = h.toNat + 1 - N := by
  have himage : UInt64.toNat '' {n : UInt64 | N ≤ n.toNat ∧ n ≤ h} = ↑(Finset.Icc N h.toNat) := by
    ext x
    simp only [Set.mem_image, Set.mem_ofPred_eq, Finset.coe_Icc, Set.mem_Icc]
    constructor
    · rintro ⟨n, ⟨hlow, hhigh⟩, rfl⟩
      exact ⟨hlow, UInt64.le_iff_toNat_le.mp hhigh⟩
    · rintro ⟨hlow, hhigh⟩
      have hx := ofNat_toNat_of_lt (hhigh.trans_lt h.toNat_lt)
      exact ⟨UInt64.ofNat x, ⟨hx.symm ▸ hlow, UInt64.le_iff_toNat_le.mpr (hx.symm ▸ hhigh)⟩, hx⟩
  rw [← Set.ncard_image_of_injective _ (fun _ _ => UInt64.toNat_inj.mp), himage, Set.ncard_coe_finset, Nat.card_Icc]

def width (e : UInt64 × UInt64) : Nat := e.1.toNat + 1 - e.2.toNat

def numbers (es : List (UInt64 × UInt64)) : Set UInt64 := {n | ∃ e ∈ es, e.2 ≤ n ∧ n ≤ e.1}

theorem numbers_cons {es : List (UInt64 × UInt64)} :
    numbers (e :: es) = {n | e.2.toNat ≤ n.toNat ∧ n ≤ e.1} ∪ numbers es := by
  ext n
  simp [numbers, UInt64.le_iff_toNat_le]

theorem numbers_entries : numbers r.rlist.entries = {n | n ∈ r} := rfl

theorem ncard_union_above {N : Nat} {es : List (UInt64 × UInt64)} (habove : ∀ b ∈ es, h < b.2) :
    ({n : UInt64 | N ≤ n.toNat ∧ n ≤ h} ∪ numbers es).ncard = h.toNat + 1 - N + (numbers es).ncard := by
  have hdisjoint : Disjoint {n : UInt64 | N ≤ n.toNat ∧ n ≤ h} (numbers es) :=
    Set.disjoint_left.mpr fun n ⟨_, hn⟩ ⟨b, hb, hbn, _⟩ => not_lt.mpr hn ((habove b hb).trans_le hbn)
  rw [Set.ncard_union_eq hdisjoint (Set.toFinite _) (Set.toFinite _), ncard_between]

/-- Ascending ranges have as many numbers as their widths sum to. -/
theorem ncard_numbers : ∀ {es : List (UInt64 × UInt64)}, es.Pairwise (fun a b => a.1 < b.2) →
    (numbers es).ncard = (es.map width).sum
  | [], _ => by simp [numbers]
  | e :: es, hsorted => by
    obtain ⟨habove, hsorted⟩ := List.pairwise_cons.mp hsorted
    rw [numbers_cons, ncard_union_above habove, ncard_numbers hsorted, List.map_cons, List.sum_cons, width]

theorem Canonical.entries_sorted (hr : r.Canonical) : r.rlist.entries.Pairwise fun a b => a.1 < b.2 :=
  r.rlist.sorted.imp_of_mem fun {a b} ha hb hab => by
    have := hr.gap a ha b hb hab
    exact UInt64.lt_iff_toNat_lt.mpr (by omega)

/-- The size of a range as the source computes it, which wraps for the range of all numbers. -/
theorem width_toNat (he : e.2 ≤ e.1) : (e.1 - e.2 + 1).toNat = width e % 2 ^ 64 := by
  have he' := UInt64.le_iff_toNat_le.mp he
  rw [UInt64.toNat_add, UInt64.toNat_sub_of_le _ _ he, UInt64.toNat_one, width, Nat.sub_add_comm he']

theorem getTotal_foldl : ∀ (es : List (UInt64 × UInt64)) (tot : UInt64), (∀ e ∈ es, e.2 ≤ e.1) →
    (es.foldl (fun tot i => tot + (i.1 - i.2 + 1)) tot).toNat = (tot.toNat + (es.map width).sum) % 2 ^ 64
  | [], tot, _ => by simp
  | e :: es, tot, hle => by
    rw [List.foldl_cons, getTotal_foldl es _ fun b hb => hle b (List.mem_cons_of_mem e hb), UInt64.toNat_add,
      width_toNat (hle e List.mem_cons_self), List.map_cons, List.sum_cons]
    omega

theorem getTotal_toNat (hr : r.Canonical) : r.getTotal.toNat = {n | n ∈ r}.ncard % 2 ^ 64 := by
  rw [getTotal, getTotal_foldl _ _ hr.low_le, ← numbers_entries, ncard_numbers hr.entries_sorted]
  simp

/-- `insert` is union, of an interval and of a number. The form is canonical again, so `operator==` compares the sets,
    `check` is membership and `get_total` is the number of members, modulo `2 ^ 64`. -/
theorem insert_union (hr : r.Canonical) (hs : s.Canonical) (hlh : l ≤ h) :
    ((r.insert l h).Canonical ∧ ∀ x, x ∈ r.insert l h ↔ x ∈ r ∨ l ≤ x ∧ x ≤ h) ∧
    ((r.insertOne n).Canonical ∧ ∀ x, x ∈ r.insertOne n ↔ x ∈ r ∨ x = n) ∧ r.insertOne n = r.insert n n ∧
    ((r == s) = true ↔ ∀ x, x ∈ r ↔ x ∈ s) ∧ (r.check n = true ↔ n ∈ r) ∧
    r.getTotal.toNat = {x | x ∈ r}.ncard % 2 ^ 64 := by
  obtain ⟨hone, hmem⟩ := insertOne_spec (n := n) hr
  obtain ⟨hint, hmem'⟩ := insert_spec hr (le_refl n)
  refine ⟨insert_spec hr hlh, ⟨hone, fun x => (hmem x).trans (or_congr_right ⟨?_, ?_⟩)⟩, ?_, ?_, check_iff hr,
    getTotal_toNat hr⟩
  · exact fun hx => le_antisymm hx.2 hx.1
  · rintro rfl
    exact ⟨le_rfl, le_rfl⟩
  · exact hone.eq_of_same hint fun x => (hmem x).trans (hmem' x).symm
  · rw [beq_iff_eq]
    exact ⟨fun heq x => heq ▸ Iff.rfl, hr.eq_of_same hs⟩

/-- The interval that joins two ranges and the number that fills a gap, at both ends of the type. -/
theorem insert_union_ends :
    let r : Nrange := (Nrange.insert ∅ 0 3).insert 5 varmax
    ((r.insert 2 varmax).Canonical ∧ ∀ x, x ∈ r.insert 2 varmax ↔ x ∈ r ∨ 2 ≤ x ∧ x ≤ varmax) ∧
    ((r.insertOne 4).Canonical ∧ ∀ x, x ∈ r.insertOne 4 ↔ x ∈ r ∨ x = 4) ∧ r.insertOne 4 = r.insert 4 4 ∧
    ((r == ∅) = true ↔ ∀ x, x ∈ r ↔ x ∈ (∅ : Nrange)) ∧ (r.check 4 = true ↔ 4 ∈ r) ∧
    r.getTotal.toNat = {x | x ∈ r}.ncard % 2 ^ 64 :=
  insert_union (insert_spec (insert_spec canonical_empty (by decide)).1 (by decide)).1 canonical_empty (by decide)

/-! ### Complement -/

/-- `invert` into an empty map is complement, and what it gives is inverted back to the map itself. -/
theorem invert_complement (hr : r.Canonical) :
    ((invert ∅ r).Canonical ∧ ∀ x, x ∈ invert ∅ r ↔ x ∉ r) ∧ invert ∅ (invert ∅ r) = r := by
  obtain ⟨hcan, hmem⟩ := invert_spec canonical_empty hr
  obtain ⟨hcan', hmem'⟩ := invert_spec canonical_empty hcan
  have hcompl : ∀ x, x ∈ invert ∅ r ↔ x ∉ r := fun x => (hmem x).trans (or_iff_right not_mem_empty)
  refine ⟨⟨hcan, hcompl⟩, hcan'.eq_of_same hr fun x => ?_⟩
  rw [hmem' x, or_iff_right not_mem_empty, hcompl, not_not]

/-- The complement of a map that touches both ends of the type. -/
theorem invert_complement_ends :
    let r : Nrange := (Nrange.insert ∅ 0 3).insert 5 varmax
    ((invert ∅ r).Canonical ∧ ∀ x, x ∈ invert ∅ r ↔ x ∉ r) ∧ invert ∅ (invert ∅ r) = r :=
  invert_complement (insert_spec (insert_spec canonical_empty (by decide)).1 (by decide)).1

/-! ### Difference -/

/-- `remove` is difference just when a stored range ends at `h` or above, or at most one ends at `l` or above: where
    none ends at `h` or above, the loop starts from the first range that ends at `l` or above and goes down. -/
theorem remove_difference_iff (hr : r.Canonical) (hlh : l ≤ h) :
    ((r.remove l h).Canonical ∧ ∀ n, n ∈ r.remove l h ↔ n ∈ r ∧ ¬(l ≤ n ∧ n ≤ h)) ↔
      (∃ k ∈ r.rlist, h ≤ k.1) ∨ ∀ a ∈ r.rlist, ∀ b ∈ r.rlist, l ≤ a.1 → l ≤ b.1 → a = b := by
  constructor
  · rintro ⟨-, hmem⟩
    by_contra hcond
    rw [not_or] at hcond
    obtain ⟨hnone, hmore⟩ := hcond
    -- Of two ranges that end at `l` or above the loop misses the higher one.
    obtain ⟨a, ha, b, hb, hla, hab⟩ : ∃ a ∈ r.rlist, ∃ b ∈ r.rlist, l ≤ a.1 ∧ a.1 < b.1 := by
      by_contra hno
      refine hmore fun a ha b hb hla hlb => SortedMap.eq_of_mem ha hb ?_
      by_contra hne
      rcases lt_or_gt_of_ne hne with hlt | hlt
      · exact hno ⟨a, ha, b, hb, hla, hlt⟩
      · exact hno ⟨b, hb, a, ha, hlb, hlt⟩
    have hbelow : ∀ k ∈ r.rlist, k.1 < h := fun k hk => not_le.mp fun hkh => hnone ⟨k, hk, hkh⟩
    have hmiss : ¬r.Visited l h b := by
      rintro ⟨i, hi, hbi⟩
      rw [removeStart, SortedMap.lowerBound_eq_none_iff.mpr hbelow, Option.none_or, Option.mem_def] at hi
      obtain ⟨-, -, hmin⟩ := SortedMap.lowerBound_eq_some_iff.mp hi
      exact absurd (hab.trans_le hbi) (not_lt.mpr (hmin a ha hla))
    have hkept : b.1 ∈ r.remove l h :=
      ((remove_spec hr hlh).2 b.1).mpr ⟨b, hb, ⟨hr.low_le b hb, le_rfl⟩, fun hv => hmiss hv.1⟩
    exact ((hmem b.1).mp hkept).2 ⟨hla.trans hab.le, (hbelow b hb).le⟩
  · rintro hcond
    refine ⟨(remove_spec hr hlh).1, fun n => mem_remove_iff hr hlh ?_⟩
    rcases hcond with ⟨k, hk, hhk⟩ | hone
    · exact visited_of_high hr hk hhk
    · intro j hj hlj hjh
      by_cases hsome : ∃ k ∈ r.rlist, h ≤ k.1
      · obtain ⟨k, hk, hhk⟩ := hsome
        exact visited_of_high hr hk hhk j hj hlj hjh
      · have hbelow : ∀ k ∈ r.rlist, k.1 < h := fun k hk => not_le.mp fun hkh => hsome ⟨k, hk, hkh⟩
        refine ⟨j, ?_, le_rfl⟩
        rw [removeStart, SortedMap.lowerBound_eq_none_iff.mpr hbelow, Option.none_or, Option.mem_def]
        exact SortedMap.lowerBound_eq_some_iff.mpr ⟨hj, hlj, fun y hy hly => (congrArg _ (hone j hj y hy hlj hly)).le⟩

/-- Two ranges inside the interval and none that ends at its end or above: the upper one is left. -/
theorem remove_not_difference :
    let r : Nrange := (Nrange.insert ∅ 1 2).insert 5 6
    r.Canonical ∧ ¬((r.remove 1 10).Canonical ∧ ∀ n, n ∈ r.remove 1 10 ↔ n ∈ r ∧ ¬(1 ≤ n ∧ n ≤ 10)) := by
  refine ⟨(insert_spec (insert_spec canonical_empty (by decide)).1 (by decide)).1, fun ⟨_, hmem⟩ => ?_⟩
  have hleft : (5 : UInt64) ∈ ((Nrange.insert ∅ 1 2).insert 5 6).remove 1 10 :=
    ⟨(6, 5), SortedMap.mem_def.mpr (by decide), by decide, by decide⟩
  exact ((hmem 5).mp hleft).2 ⟨by decide, by decide⟩

/-- The interval that cuts both ranges of a map. -/
theorem remove_difference_cuts :
    let r : Nrange := (Nrange.insert ∅ 1 4).insert 6 9
    ((r.remove 3 7).Canonical ∧ ∀ n, n ∈ r.remove 3 7 ↔ n ∈ r ∧ ¬(3 ≤ n ∧ n ≤ 7)) ↔
      (∃ k ∈ r.rlist, 7 ≤ k.1) ∨ ∀ a ∈ r.rlist, ∀ b ∈ r.rlist, 3 ≤ a.1 → 3 ≤ b.1 → a = b :=
  remove_difference_iff (insert_spec (insert_spec canonical_empty (by decide)).1 (by decide)).1 (by decide)

/-! ### The largest members -/

/-- `s` is what is left of `r` when the `num` largest members are kept. -/
structure KeepsLargest (r s : Nrange) (num : Nat) : Prop where
  canonical : s.Canonical
  sub : ∀ n ∈ s, n ∈ r
  below : ∀ a ∈ r, a ∉ s → ∀ b ∈ s, a < b
  count : {n | n ∈ s}.ncard = min num {n | n ∈ r}.ncard

/-- The members from a bound on are the largest ones. -/
theorem KeepsLargest.of_bound {N num : Nat} (hs : s.Canonical) (hmem : ∀ n, n ∈ s ↔ n ∈ r ∧ N ≤ n.toNat)
    (hcount : {n | n ∈ r ∧ N ≤ n.toNat}.ncard = min num {n | n ∈ r}.ncard) : KeepsLargest r s num where
  canonical := hs
  sub n hn := ((hmem n).mp hn).1
  below a ha hout b hb := by
    have hna : ¬N ≤ a.toNat := fun hN => hout ((hmem a).mpr ⟨ha, hN⟩)
    have hNb := ((hmem b).mp hb).2
    exact UInt64.lt_iff_toNat_lt.mpr (by omega)
  count := by
    rw [← hcount]
    exact congrArg Set.ncard (Set.ext hmem)

theorem low_spec (hr : r.Canonical) {low : UInt64} (hlow : r.low = some low) : low ∈ r ∧ ∀ n ∈ r, low ≤ n := by
  unfold Nrange.low at hlow
  obtain ⟨e, hhead, rfl⟩ := Option.map_eq_some_iff.mp hlow
  obtain ⟨es, hes⟩ := List.head?_eq_some_iff.mp hhead
  have he : e ∈ r.rlist := SortedMap.mem_def.mpr (hes ▸ List.mem_cons_self)
  refine ⟨⟨e, he, le_rfl, hr.low_le e he⟩, ?_⟩
  rintro n ⟨b, hb, hbn, -⟩
  have hsorted := hr.entries_sorted
  rw [hes, List.pairwise_cons] at hsorted
  rw [SortedMap.mem_def, hes, List.mem_cons] at hb
  rcases hb with rfl | hb
  · exact hbn
  · exact (hr.low_le e he).trans ((hsorted.1 b hb).le.trans hbn)

/-- The removal at the end of `clip_to_max_total`: all members below `newlow` go, where a stored range ends just below
    `newlow` or above, unless `newlow` has wrapped to the lowest member. -/
theorem remove_below (hr : r.Canonical) {N : Nat} {low newlow : UInt64} (hlow : r.low = some low) (hN : N ≤ 2 ^ 64)
    (hnew : newlow = UInt64.ofNat N) (hge : low.toNat ≤ N) (hend : ∃ k ∈ r.rlist, N ≤ k.1.toNat + 1)
    (hwrap : N = 2 ^ 64 → low ≠ varmin) :
    (if low ≠ newlow then r.remove low (newlow - 1) else r).Canonical ∧
      ∀ n, n ∈ (if low ≠ newlow then r.remove low (newlow - 1) else r) ↔ n ∈ r ∧ N ≤ n.toNat := by
  obtain ⟨-, hmin⟩ := low_spec hr hlow
  split
  · next hne =>
    have hlt : low.toNat < N := by
      refine hge.lt_of_ne fun heq => hne ?_
      rw [hnew, ← heq, UInt64.ofNat_toNat]
    have hpred : (newlow - 1).toNat = N - 1 := by
      rw [hnew, UInt64.toNat_sub, UInt64.toNat_ofNat', UInt64.toNat_one]
      omega
    have hlh : low ≤ newlow - 1 := UInt64.le_iff_toNat_le.mpr (by omega)
    obtain ⟨k, hk, hNk⟩ := hend
    have hkh : newlow - 1 ≤ k.1 := UInt64.le_iff_toNat_le.mpr (by omega)
    refine ⟨(remove_spec hr hlh).1, fun n => ?_⟩
    rw [mem_remove_iff hr hlh (visited_of_high hr hk hkh)]
    refine and_congr_right fun hn => ?_
    rw [UInt64.le_iff_toNat_le, UInt64.le_iff_toNat_le]
    have := UInt64.le_iff_toNat_le.mp (hmin n hn)
    omega
  · next heq =>
    have heq : low = UInt64.ofNat N := hnew ▸ not_not.mp heq
    have hlt : N < 2 ^ 64 := hN.lt_of_ne fun hN' => hwrap hN' (heq.trans (hN' ▸ rfl))
    refine ⟨hr, fun n => (and_iff_left_of_imp fun hn => ?_).symm⟩
    have := UInt64.le_iff_toNat_le.mp (hmin n hn)
    rwa [heq, ofNat_toNat_of_lt hlt] at this

theorem low_isSome (he : e ∈ r.rlist) : ∃ low, r.low = some low := by
  unfold Nrange.low
  cases hes : r.rlist.entries with
  | nil => exact absurd (hes ▸ SortedMap.mem_def.mp he) List.not_mem_nil
  | cons b es => exact ⟨b.2, rfl⟩

theorem ncard_univ : (Set.univ : Set UInt64).ncard = 2 ^ 64 := by
  rw [← show {x : UInt64 | 0 ≤ x.toNat ∧ x ≤ varmax} = Set.univ from Set.eq_univ_of_forall fun x => ⟨Nat.zero_le _, le_varmax⟩,
    ncard_between, toNat_varmax]
  rfl

/-- A set of numbers that is not everything has fewer than `2 ^ 64` members. -/
theorem ncard_lt (hn : n ∉ r) : {x | x ∈ r}.ncard < 2 ^ 64 := by
  have hssub : {x | x ∈ r} ⊂ Set.univ := Set.ssubset_univ_iff.mpr fun h => hn (h ▸ Set.mem_univ n : n ∈ {x | x ∈ r})
  exact ncard_univ ▸ Set.ncard_lt_ncard hssub (Set.toFinite _)

/-- The number of members from a bound in the range `i` on. -/
theorem ncard_from (hr : r.Canonical) {es done : List (UInt64 × UInt64)} {i : UInt64 × UInt64} {N : Nat}
    (hes : r.rlist.entries = es ++ i :: done) (hlow : i.2.toNat ≤ N) (hhigh : N ≤ i.1.toNat + 1) :
    {n | n ∈ r ∧ N ≤ n.toNat}.ncard = i.1.toNat + 1 - N + (done.map width).sum := by
  have hsorted := hr.entries_sorted
  rw [hes] at hsorted
  obtain ⟨-, hsorted, hbelow⟩ := List.pairwise_append.mp hsorted
  obtain ⟨habove, hdone⟩ := List.pairwise_cons.mp hsorted
  have hsplit : {n | n ∈ r ∧ N ≤ n.toNat} = {n | N ≤ n.toNat ∧ n ≤ i.1} ∪ numbers done := by
    ext n
    simp only [Set.mem_ofPred_eq, Set.mem_union, mem_def, SortedMap.mem_def, hes, numbers]
    constructor
    · rintro ⟨⟨e, he, hlow', hhigh'⟩, hN⟩
      rcases List.mem_append.mp he with he | he
      · have := UInt64.lt_iff_toNat_lt.mp (hhigh'.trans_lt (hbelow e he i List.mem_cons_self))
        omega
      · rcases List.mem_cons.mp he with rfl | he
        · exact Or.inl ⟨hN, hhigh'⟩
        · exact Or.inr ⟨e, he, hlow', hhigh'⟩
    · rintro (⟨hN, hni⟩ | ⟨e, he, hlow', hhigh'⟩)
      · exact ⟨⟨i, by simp, UInt64.le_iff_toNat_le.mpr (by omega), hni⟩, hN⟩
      · refine ⟨⟨e, by simp [he], hlow', hhigh'⟩, ?_⟩
        have := UInt64.lt_iff_toNat_lt.mp ((habove e he).trans_le hlow')
        omega
  rw [hsplit, ncard_union_above habove, ncard_numbers hdone]

/-- The loop of `clip_to_max_total`, with the ranges `done` behind it and their members counted. -/
theorem clipLoop_keeps (hr : r.Canonical) (hn : n ∉ r) (hends : ¬(num = 0 ∧ varmin ∈ r ∧ varmax ∈ r)) :
    ∀ (is done : List (UInt64 × UInt64)) (tot : UInt64), r.rlist.entries = is.reverse ++ done →
      tot.toNat = (done.map width).sum → tot ≤ num → (done ≠ [] → tot < num) →
      KeepsLargest r (clipLoop r num is tot) num.toNat
  | [], done, tot, hes, htot, hle, _ => by
    rw [List.reverse_nil, List.nil_append] at hes
    refine KeepsLargest.of_bound (s := r) hr (fun n => (and_iff_left (Nat.zero_le n.toNat)).symm) ?_
    have hcard : {x | x ∈ r}.ncard = tot.toNat := by
      rw [← numbers_entries, ncard_numbers hr.entries_sorted, hes, htot]
    simp only [Nat.zero_le, and_true, hcard]
    exact (min_eq_right (UInt64.le_iff_toNat_le.mp hle)).symm
  | i :: is, done, tot, hes, htot, hle, hlt => by
    rw [List.reverse_cons, List.append_assoc, List.singleton_append] at hes
    have hi : i ∈ r.rlist := SortedMap.mem_def.mpr (hes ▸ by simp)
    have hile := UInt64.le_iff_toNat_le.mp (hr.low_le i hi)
    have hsorted := hr.entries_sorted
    have hcard : {x | x ∈ r}.ncard = (is.reverse.map width).sum + (width i + tot.toNat) := by
      rw [← numbers_entries, ncard_numbers hsorted, hes, htot]
      simp
    rw [hes] at hsorted
    have hfew := ncard_lt hn
    have hwidth : width i = i.1.toNat + 1 - i.2.toNat := rfl
    have htot' : (tot + (i.1 - i.2 + 1)).toNat = tot.toNat + width i := by
      rw [UInt64.toNat_add, width_toNat (hr.low_le i hi)]
      omega
    have hle := UInt64.le_iff_toNat_le.mp hle
    unfold clipLoop
    dsimp only
    split
    · next hreach =>
      have hreach := UInt64.le_iff_toNat_le.mp hreach
      obtain ⟨low, hlow⟩ := low_isSome hi
      obtain ⟨hlowmem, hmin⟩ := low_spec hr hlow
      have hlowi := UInt64.le_iff_toNat_le.mp (hmin i.2 ⟨i, hi, le_rfl, hr.low_le i hi⟩)
      have hi1 := i.1.toNat_lt
      rw [hlow]
      -- `N` is the new low end before it wraps.
      obtain ⟨N, hN⟩ : ∃ N, N = i.2.toNat + (tot.toNat + width i - num.toNat) := ⟨_, rfl⟩
      have hnew : i.2 + (tot + (i.1 - i.2 + 1) - num) = UInt64.ofNat N := by
        rw [← UInt64.toNat_inj, UInt64.toNat_add, UInt64.toNat_sub_of_le _ _ (UInt64.le_iff_toNat_le.mpr hreach), htot',
          UInt64.toNat_ofNat', hN]
      have hwrap : N = 2 ^ 64 → low ≠ varmin := by
        rintro hmax rfl
        have hmaxmem : i.1 = varmax := UInt64.toNat_inj.mp (by rw [toNat_varmax]; omega)
        refine hends ⟨?_, hlowmem, hmaxmem ▸ ⟨i, hi, hr.low_le i hi, le_rfl⟩⟩
        cases done with
        | nil => exact UInt64.toNat_inj.mp (by simp at htot; simp; omega)
        | cons b done =>
          have := (List.pairwise_cons.mp (List.pairwise_append.mp hsorted).2.1).1 b List.mem_cons_self
          exact absurd le_varmax (not_le.mpr (hmaxmem ▸ this))
      obtain ⟨hcan, hmem⟩ := remove_below hr hlow (by omega) hnew (by omega) ⟨i, hi, by omega⟩ hwrap
      refine KeepsLargest.of_bound hcan hmem ?_
      rw [min_eq_left (by omega), ncard_from hr hes (by omega) (by omega), ← htot]
      omega
    · next hmore =>
      have hmore := not_le.mp hmore
      refine clipLoop_keeps hr hn hends is (i :: done) _ hes ?_ hmore.le fun _ => hmore
      rw [htot', htot, List.map_cons, List.sum_cons, Nat.add_comm]

/-- The map of all numbers. -/
theorem eq_all (hr : r.Canonical) (hall : ∀ n, n ∈ r) : r = ⟨⟨[(varmax, varmin)], by simp⟩⟩ := by
  obtain ⟨hcan, hmem⟩ := union_of_new canonical_empty (le_varmax (n := varmin)) fun e he => absurd he SortedMap.not_mem_empty
  exact hr.eq_of_same hcan fun n =>
    iff_of_true (hall n) ((hmem n).mpr (Or.inr ⟨UInt64.le_iff_toNat_le.mpr (Nat.zero_le _), le_varmax⟩))

/-- The total of the range of all numbers wraps to 0, so that nothing is cut. -/
theorem clip_all (hr : r.Canonical) (hall : ∀ n, n ∈ r) : r.clipToMaxTotal num = r := by
  rw [eq_all hr hall]
  unfold clipToMaxTotal
  simp only [List.reverse_cons, List.reverse_nil, List.nil_append, clipLoop]
  have htot : (0 : UInt64) + (varmax - varmin + 1) = 0 := by decide
  rw [htot]
  split
  · next hnum =>
    have hzero : num = 0 := le_antisymm hnum (UInt64.le_iff_toNat_le.mpr (Nat.zero_le _))
    rw [hzero]
    rfl
  · rfl

/-- With `num = 0` the new low end wraps to 0 when the map stores the highest number. -/
theorem clip_zero (hr : r.Canonical) (hmin : varmin ∈ r) (hmax : varmax ∈ r) : r.clipToMaxTotal 0 = r := by
  obtain ⟨i, hi, hlow, hhigh⟩ := hmax
  have hi1 : i.1 = varmax := le_antisymm le_varmax hhigh
  obtain ⟨low, hl⟩ := low_isSome hi
  have hlow0 : low = varmin := le_antisymm ((low_spec hr hl).2 varmin hmin) (UInt64.le_iff_toNat_le.mpr (Nat.zero_le _))
  obtain ⟨es, done, hes⟩ := List.append_of_mem (SortedMap.mem_def.mp hi)
  have hdone : done = [] := by
    refine List.eq_nil_iff_forall_not_mem.mpr fun b hb => ?_
    have hsorted := hr.entries_sorted
    rw [hes] at hsorted
    have hib := (List.pairwise_cons.mp (List.pairwise_append.mp hsorted).2.1).1 b hb
    exact absurd le_varmax (not_le.mpr (hi1 ▸ hib))
  have hnew : i.2 + (0 + (i.1 - i.2 + 1) - 0) = varmin := by
    have hsum : i.2 + (0 + (i.1 - i.2 + 1) - 0) = i.1 + 1 := by
      rw [UInt64.zero_add, UInt64.sub_zero, ← UInt64.add_assoc, UInt64.add_comm i.2, UInt64.sub_add_cancel]
    rw [hsum, hi1]
    rfl
  unfold clipToMaxTotal
  rw [hes, hdone, List.reverse_append, List.reverse_singleton, List.singleton_append, clipLoop]
  dsimp only
  rw [if_pos (UInt64.le_iff_toNat_le.mpr (Nat.zero_le _)), hl, hlow0, hnew]
  exact if_neg (not_not.mpr rfl)

theorem not_keeps_all (hr : r.Canonical) (hall : ∀ n, n ∈ r) : ¬KeepsLargest r (r.clipToMaxTotal num) num.toNat := by
  intro hkeeps
  have hcount := hkeeps.count
  have hcard : {n | n ∈ r}.ncard = 2 ^ 64 := by
    rw [Set.eq_univ_of_forall (s := {n | n ∈ r}) hall, ncard_univ]
  rw [clip_all hr hall, hcard] at hcount
  have := num.toNat_lt
  omega

theorem not_keeps_zero (hr : r.Canonical) (hmin : varmin ∈ r) (hmax : varmax ∈ r) :
    ¬KeepsLargest r (r.clipToMaxTotal 0) 0 := by
  intro hkeeps
  have hcount := hkeeps.count
  rw [clip_zero hr hmin hmax, Nat.zero_min, Set.ncard_eq_zero] at hcount
  exact Set.eq_empty_iff_forall_notMem.mp hcount varmin hmin

/-- `clip_to_max_total` keeps the `num` largest members just when the map is not everything, and does not store both
    ends of the type when `num` is 0. -/
theorem clipToMaxTotal_iff (hr : r.Canonical) :
    KeepsLargest r (r.clipToMaxTotal num) num.toNat ↔ (∃ n, n ∉ r) ∧ ¬(num = 0 ∧ varmin ∈ r ∧ varmax ∈ r) := by
  constructor
  · intro hkeeps
    constructor
    · by_contra hall
      refine not_keeps_all hr (fun n => ?_) hkeeps
      by_contra hn
      exact hall ⟨n, hn⟩
    · rintro ⟨rfl, hmin, hmax⟩
      exact not_keeps_zero hr hmin hmax hkeeps
  · rintro ⟨⟨n, hn⟩, hends⟩
    refine clipLoop_keeps hr hn hends r.rlist.entries.reverse [] 0 (by simp) (by simp) ?_ (by simp)
    exact UInt64.le_iff_toNat_le.mpr (Nat.zero_le _)

/-- Nothing is cut off the map of all numbers, nor, when nothing is to be kept, off one that stores both ends of the
    type. -/
theorem clipToMaxTotal_wraps :
    let all : Nrange := Nrange.insert ∅ varmin varmax
    let ends : Nrange := (Nrange.insert ∅ 0 1).insert varmax varmax
    (all.Canonical ∧ ¬KeepsLargest all (all.clipToMaxTotal 3) (3 : UInt64).toNat) ∧
      ends.Canonical ∧ ¬KeepsLargest ends (ends.clipToMaxTotal 0) (0 : UInt64).toNat := by
  obtain ⟨hall, hmem⟩ := insert_spec canonical_empty (le_varmax (n := varmin))
  obtain ⟨hends, hmem'⟩ := insert_spec (insert_spec canonical_empty (by decide : (0 : UInt64) ≤ 1)).1 (le_refl varmax)
  refine ⟨⟨hall, not_keeps_all hall fun n => ?_⟩, hends, not_keeps_zero hends ?_ ?_⟩
  · exact (hmem n).mpr (Or.inr ⟨UInt64.le_iff_toNat_le.mpr (Nat.zero_le _), le_varmax⟩)
  · exact ⟨(1, 0), SortedMap.mem_def.mpr (by decide), by decide, by decide⟩
  · exact (hmem' varmax).mpr (Or.inr ⟨le_rfl, le_rfl⟩)

/-- Five members are kept of ranges that end at the top of the type. -/
theorem clipToMaxTotal_keeps_top :
    let r : Nrange := (Nrange.insert ∅ 2 4).insert (varmax - 3) varmax
    KeepsLargest r (r.clipToMaxTotal 5) (5 : UInt64).toNat ↔ (∃ n, n ∉ r) ∧ ¬((5 : UInt64) = 0 ∧ varmin ∈ r ∧ varmax ∈ r) :=
  clipToMaxTotal_iff (insert_spec (insert_spec canonical_empty (by decide)).1 (by decide)).1

end Nrange
end Nget

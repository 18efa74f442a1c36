import Nget.Nrange

/-! The set that a `c_nrange` stores. A canonical map of ranges has ranges that are not empty, pairwise
    disjoint and not adjacent; `insert` adds its interval, or its number, and keeps the form. -/

namespace Nget
namespace Nrange
variable {r s : Nrange} {l h n : UInt64} {e : UInt64 × UInt64}

instance : Membership UInt64 Nrange := ⟨fun r n => ∃ e ∈ r.rlist, e.2 ≤ n ∧ n ≤ e.1⟩

theorem mem_def : n ∈ r ↔ ∃ e ∈ r.rlist, e.2 ≤ n ∧ n ≤ e.1 := Iff.rfl

@[simp] theorem not_mem_empty : n ∉ (∅ : Nrange) := fun ⟨_, he, _⟩ => SortedMap.not_mem_empty he

/-- The stored ranges are not empty, disjoint and not adjacent. -/
structure Canonical (r : Nrange) : Prop where
  low_le : ∀ e ∈ r.rlist, e.2 ≤ e.1
  gap : ∀ a ∈ r.rlist, ∀ b ∈ r.rlist, a.1 < b.1 → a.1.toNat + 1 < b.2.toNat

theorem canonical_empty : Canonical ∅ :=
  ⟨fun _ he => absurd he SortedMap.not_mem_empty, fun _ he => absurd he SortedMap.not_mem_empty⟩

/-- Two ranges of a canonical map that share a number are one. -/
theorem Canonical.eq_of_mem (hr : r.Canonical) {a b : UInt64 × UInt64} (ha : a ∈ r.rlist) (hb : b ∈ r.rlist)
    (han : a.2 ≤ n ∧ n ≤ a.1) (hbn : b.2 ≤ n ∧ n ≤ b.1) : a = b := by
  rw [UInt64.le_iff_toNat_le, UInt64.le_iff_toNat_le] at han hbn
  rcases lt_trichotomy a.1 b.1 with hlt | heq | hlt
  · have := hr.gap a ha b hb hlt
    omega
  · exact SortedMap.eq_of_mem ha hb heq
  · have := hr.gap b hb a ha hlt
    omega

theorem check_iff (hr : r.Canonical) : r.check n = true ↔ n ∈ r := by
  unfold check
  cases hi : r.rlist.lowerBound n with
  | none =>
    rw [SortedMap.lowerBound_eq_none_iff] at hi
    simp only [Bool.false_eq_true, false_iff, mem_def, not_exists, not_and]
    exact fun e he _ => not_le.mpr (hi e he)
  | some i =>
    obtain ⟨him, hin, hmin⟩ := SortedMap.lowerBound_eq_some_iff.mp hi
    simp only [decide_eq_true_eq]
    constructor
    · exact fun hlow => ⟨i, him, hlow, hin⟩
    · rintro ⟨e, he, hlow, hhigh⟩
      rcases (hmin e he hhigh).lt_or_eq with hlt | heq
      · have := hr.gap i him e he hlt
        rw [UInt64.le_iff_toNat_le] at *
        omega
      · rw [SortedMap.eq_of_mem him he heq]
        exact hlow

theorem empty_iff (hr : r.Canonical) : r.empty = true ↔ ∀ n, n ∉ r := by
  simp only [empty, SortedMap.isEmpty_iff, mem_def, not_exists, not_and]
  constructor
  · exact fun hnone n e he _ => absurd he (hnone e)
  · exact fun hnone e he => hnone e.1 e he (hr.low_le e he) le_rfl

/-! ### Insertion -/

theorem toNat_varmax : varmax.toNat = 2 ^ 64 - 1 := rfl

theorem le_varmax : n ≤ varmax := by
  have := n.toNat_lt
  rw [UInt64.le_iff_toNat_le, toNat_varmax]
  omega

theorem pred_toNat {a : UInt64} (ha : a < l) : (l - 1).toNat + 1 = l.toNat := by
  rw [UInt64.lt_iff_toNat_lt] at ha
  rw [UInt64.toNat_sub_of_le _ _ (UInt64.le_iff_toNat_le.mpr (by simp; omega))]
  simp
  omega

theorem succ_toNat {a : UInt64} (ha : h < a) : (h + 1).toNat = h.toNat + 1 := by
  rw [UInt64.lt_iff_toNat_lt] at ha
  have := a.toNat_lt
  rw [UInt64.toNat_add, UInt64.toNat_one, Nat.mod_eq_of_lt (by omega)]

theorem lt_pred_iff {k l : UInt64} : k < (if varmin < l then l - 1 else l) ↔ k.toNat + 1 < l.toNat := by
  have h0 : varmin.toNat = 0 := rfl
  split
  · next hpos =>
    have := pred_toNat hpos
    rw [UInt64.lt_iff_toNat_lt]
    omega
  · next hpos =>
    rw [UInt64.lt_iff_toNat_lt] at hpos ⊢
    omega

theorem succ_lt_iff {h k : UInt64} : (if h < varmax then h + 1 else h) < k ↔ h.toNat + 1 < k.toNat := by
  have := k.toNat_lt
  have := toNat_varmax
  split
  · next hlt => rw [UInt64.lt_iff_toNat_lt, succ_toNat hlt]
  · next hlt =>
    rw [UInt64.lt_iff_toNat_lt] at hlt ⊢
    omega

/-- Two ranges that are disjoint and not adjacent. -/
def Away (a b : UInt64 × UInt64) : Prop := a.1.toNat + 1 < b.2.toNat ∨ b.1.toNat + 1 < a.2.toNat

/-- A map whose ranges are one new range and the old ranges that satisfy `K`, where these lie away from the
    new one and the others inside it, stores the union with `[l, h]` in canonical form when the new range
    holds `[l, h]` and numbers of the old set. -/
theorem union_of_merge (hr : r.Canonical) {new : UInt64 × UInt64} {K : UInt64 × UInt64 → Prop} (hlh : l ≤ h)
    (hmem : ∀ e, e ∈ s.rlist ↔ e = new ∨ e ∈ r.rlist ∧ K e) (haway : ∀ e ∈ r.rlist, K e → Away e new)
    (hinside : ∀ e ∈ r.rlist, ¬K e → new.2 ≤ e.2 ∧ e.1 ≤ new.1) (hlow : new.2 ≤ l) (hhigh : h ≤ new.1)
    (hfill : ∀ n, new.2 ≤ n → n ≤ new.1 → (l ≤ n ∧ n ≤ h) ∨ ∃ e ∈ r.rlist, e.2 ≤ n ∧ n ≤ e.1) :
    s.Canonical ∧ ∀ n, n ∈ s ↔ n ∈ r ∨ l ≤ n ∧ n ≤ h := by
  have hnew : new.2 ≤ new.1 := hlow.trans (hlh.trans hhigh)
  refine ⟨⟨fun e he => ?_, fun a ha b hb hlt => ?_⟩, fun n => ⟨?_, ?_⟩⟩
  · rcases (hmem e).mp he with rfl | ⟨he, -⟩
    · exact hnew
    · exact hr.low_le e he
  · rw [UInt64.le_iff_toNat_le] at hnew
    have hlt' := UInt64.lt_iff_toNat_lt.mp hlt
    rcases (hmem a).mp ha with rfl | ⟨ha, haK⟩ <;> rcases (hmem b).mp hb with rfl | ⟨hb, hbK⟩
    · omega
    · have := UInt64.le_iff_toNat_le.mp (hr.low_le b hb)
      rcases haway b hb hbK with h | h <;> omega
    · have := UInt64.le_iff_toNat_le.mp (hr.low_le a ha)
      rcases haway a ha haK with h | h <;> omega
    · exact hr.gap a ha b hb hlt
  · rintro ⟨e, he, hn⟩
    rcases (hmem e).mp he with rfl | ⟨he, -⟩
    · exact (hfill n hn.1 hn.2).symm
    · exact Or.inl ⟨e, he, hn⟩
  · rintro (⟨e, he, hn⟩ | hn)
    · by_cases hK : K e
      · exact ⟨e, (hmem e).mpr (Or.inr ⟨he, hK⟩), hn⟩
      · have hin := hinside e he hK
        exact ⟨new, (hmem new).mpr (Or.inl rfl), hin.1.trans hn.1, hn.2.trans hin.2⟩
    · exact ⟨new, (hmem new).mpr (Or.inl rfl), hlow.trans hn.1, hn.2.trans hhigh⟩

/-- Where every old range lies away from `[l, h]`, it is added as a range of its own. -/
theorem union_of_new (hr : r.Canonical) (hlh : l ≤ h) (haway : ∀ e ∈ r.rlist, Away e (h, l)) :
    Canonical ⟨r.rlist.assign h l⟩ ∧ ∀ n, n ∈ (⟨r.rlist.assign h l⟩ : Nrange) ↔ n ∈ r ∨ l ≤ n ∧ n ≤ h := by
  refine @union_of_merge _ _ _ _ hr (h, l) (fun e => e.1 ≠ h) hlh (fun e => SortedMap.mem_assign)
    (fun e he _ => haway e he) (fun e he heq => ?_) le_rfl le_rfl fun n hl hh => Or.inl ⟨hl, hh⟩
  have heq := congrArg UInt64.toNat (not_not.mp heq)
  have hlow := UInt64.le_iff_toNat_le.mp (hr.low_le e he)
  have hlh := UInt64.le_iff_toNat_le.mp hlh
  rcases haway e he with h | h <;> simp only at h <;> omega

/-- The range `j`, which overlaps or touches `[l, h]` from above, is extended down to `l`. -/
theorem union_of_extend (hr : r.Canonical) {j : UInt64 × UInt64} (hj : j ∈ r.rlist) (hl : l ≤ j.2) (hh : h ≤ j.1)
    (hlh : l ≤ h) (htouch : j.2.toNat ≤ h.toNat + 1) (hbelow : ∀ e ∈ r.rlist, e.1 < j.1 → e.1.toNat + 1 < l.toNat) :
    Canonical ⟨r.rlist.assign j.1 l⟩ ∧ ∀ n, n ∈ (⟨r.rlist.assign j.1 l⟩ : Nrange) ↔ n ∈ r ∨ l ≤ n ∧ n ≤ h := by
  refine @union_of_merge _ _ _ _ hr (j.1, l) (fun e => e.1 ≠ j.1) hlh (fun e => SortedMap.mem_assign)
    (fun e he hne => ?_) (fun e he heq => ?_) le_rfl hh fun n hln hnj => ?_
  · rcases lt_or_gt_of_ne hne with hlt | hlt
    · exact Or.inl (hbelow e he hlt)
    · exact Or.inr (hr.gap j hj e he hlt)
  · rw [SortedMap.eq_of_mem he hj (not_not.mp heq)]
    exact ⟨hl, le_rfl⟩
  · by_cases hnh : n ≤ h
    · exact Or.inl ⟨hln, hnh⟩
    · have hnh := UInt64.lt_iff_toNat_lt.mp (not_le.mp hnh)
      exact Or.inr ⟨j, hj, UInt64.le_iff_toNat_le.mpr (by omega), hnj⟩

/-! ### The ranges that an interval meets -/

theorem inSpan_iff {k : UInt64} {i : Option (UInt64 × UInt64)} : inSpan l i k = true ↔ l ≤ k ∧ ∀ e ∈ i, k < e.1 := by
  cases i <;> simp [inSpan]

/-- A range that ends at or above `h` is the first of these, or lies above it. -/
theorem exists_lowerBound {m : SortedMap UInt64 UInt64} (he : e ∈ m) (hhe : h ≤ e.1) :
    ∃ k, m.lowerBound h = some k ∧ k ∈ m ∧ (k = e ∨ k.1 < e.1) := by
  cases hi : m.lowerBound h with
  | none => exact absurd (SortedMap.lowerBound_eq_none_iff.mp hi e he) (not_lt.mpr hhe)
  | some k =>
    obtain ⟨hk, -, hmin⟩ := SortedMap.lowerBound_eq_some_iff.mp hi
    refine ⟨k, rfl, hk, ?_⟩
    rcases (hmin e he hhe).lt_or_eq with hlt | heq
    · exact Or.inr hlt
    · exact Or.inl (SortedMap.eq_of_mem hk he heq)

/-- A range is another one than `o` when its key is. -/
theorem ne_key_iff {m : SortedMap UInt64 UInt64} {o : Option (UInt64 × UInt64)} (ho : ∀ k ∈ o, k ∈ m) :
    ∀ e ∈ m, ∀ k ∈ o, e.1 ≠ k.1 ↔ e ∉ o := by
  intro e he k hk
  rw [Option.mem_def] at hk
  subst hk
  refine not_congr ⟨fun hkey => ?_, fun hmem => ?_⟩
  · rw [SortedMap.eq_of_mem he (ho k rfl) hkey]
    rfl
  · cases hmem
    rfl

/-- The ranges from `j` on that end below `h` give way to the range from `low` to `top`: `low` is the lower one of `l` and
    the low end of `j`, and `top` is `h`, or the high end of the next range `i` when that one overlaps or touches
    `[l, h]`. -/
structure Absorbs (r : Nrange) (l h : UInt64) (j : UInt64 × UInt64) (i : Option (UInt64 × UInt64)) (low top : UInt64) :
    Prop where
  first : j ∈ r.rlist
  next : r.rlist.lowerBound h = i
  first_lt : j.1 < h
  first_touches : l.toNat ≤ j.1.toNat + 1
  low_eq : low = if j.2 < l then j.2 else l
  below : ∀ e ∈ r.rlist, e.1 < j.1 → e.1.toNat + 1 < l.toNat
  top_eq : (∀ k ∈ i, h.toNat + 1 < k.2.toNat) ∧ top = h ∨ ∃ k ∈ i, k.2.toNat ≤ h.toNat + 1 ∧ top = k.1

section
variable {j : UInt64 × UInt64} {i : Option (UInt64 × UInt64)} {low top : UInt64}

theorem Absorbs.low_min (ha : Absorbs r l h j i low top) :
    low.toNat ≤ l.toNat ∧ low.toNat ≤ j.2.toNat ∧ (low.toNat = l.toNat ∨ low.toNat = j.2.toNat) := by
  rcases lt_or_ge j.2 l with hlt | hge
  · rw [ha.low_eq, if_pos hlt]
    rw [UInt64.lt_iff_toNat_lt] at hlt
    omega
  · rw [ha.low_eq, if_neg (not_lt.mpr hge)]
    rw [UInt64.le_iff_toNat_le] at hge
    omega

theorem Absorbs.le_top (ha : Absorbs r l h j i low top) : h ≤ top := by
  rcases ha.top_eq with ⟨-, rfl⟩ | ⟨k, hk, -, rfl⟩
  · exact le_rfl
  · exact (SortedMap.lowerBound_eq_some_iff.mp (ha.next.trans hk)).2.1

theorem Absorbs.exists_next (ha : Absorbs r l h j i low top) (he : e ∈ r.rlist) (hhe : h ≤ e.1) :
    ∃ k, i = some k ∧ k ∈ r.rlist ∧ (k = e ∨ k.1 < e.1) :=
  ha.next ▸ exists_lowerBound he hhe

/-- What is neither absorbed nor the next range that is joined lies away from the new range. -/
theorem Absorbs.away (ha : Absorbs r l h j i low top) (hr : r.Canonical) (he : e ∈ r.rlist)
    (hspan : inSpan j.1 i e.1 = false) (hne : e.1 ≠ top) : Away e (top, low) := by
  rcases lt_or_ge e.1 j.1 with hej | hje
  · have := ha.below e he hej
    have := hr.gap e he j ha.first hej
    have := ha.low_min
    exact Or.inl (by simp only; omega)
  right
  rcases lt_or_ge e.1 h with heh | hhe
  · have hspan' : inSpan j.1 i e.1 = true := inSpan_iff.mpr ⟨hje, fun k hk =>
      heh.trans_le (SortedMap.lowerBound_eq_some_iff.mp (ha.next.trans hk)).2.1⟩
    exact absurd (hspan'.symm.trans hspan) (by simp)
  · obtain ⟨k, rfl, hk, hke⟩ := ha.exists_next he hhe
    rcases hke with rfl | hke
    · rcases ha.top_eq with ⟨hfar, rfl⟩ | ⟨k', hk', -, rfl⟩
      · exact hfar k rfl
      · cases hk'
        exact absurd rfl hne
    · have hgap := hr.gap k hk e he hke
      have := UInt64.le_iff_toNat_le.mp (hr.low_le k hk)
      rcases ha.top_eq with ⟨hfar, rfl⟩ | ⟨k', hk', -, rfl⟩
      · have := hfar k rfl
        simp only
        omega
      · cases hk'
        exact hgap

/-- What is absorbed or joined lies inside the new range. -/
theorem Absorbs.inside (ha : Absorbs r l h j i low top) (hr : r.Canonical) (he : e ∈ r.rlist)
    (hK : inSpan j.1 i e.1 = true ∨ e.1 = top) : low ≤ e.2 ∧ e.1 ≤ top := by
  have hje : j.1 ≤ e.1 := by
    rcases hK with hspan | rfl
    · exact (inSpan_iff.mp hspan).1
    · exact (ha.first_lt.trans_le ha.le_top).le
  constructor
  · rw [UInt64.le_iff_toNat_le]
    have hmin := ha.low_min
    rcases hje.lt_or_eq with hlt | heq
    · have := hr.gap j ha.first e he hlt
      have := UInt64.le_iff_toNat_le.mp (hr.low_le j ha.first)
      omega
    · rw [← SortedMap.eq_of_mem ha.first he heq]
      exact hmin.2.1
  · rcases hK with hspan | rfl
    · refine le_trans (not_lt.mp fun hhe => ?_) ha.le_top
      obtain ⟨k, hk, -, hke⟩ := ha.exists_next he hhe.le
      have hek := (inSpan_iff.mp hspan).2 k hk
      rcases hke with rfl | hke
      · exact absurd hek (lt_irrefl _)
      · exact absurd hek (lt_asymm hke)
    · exact le_rfl

/-- The new range holds nothing but `[l, h]` and numbers of `j` and of the range that is joined. -/
theorem Absorbs.fill (ha : Absorbs r l h j i low top) (hl : low ≤ n) (hn : n ≤ top) :
    (l ≤ n ∧ n ≤ h) ∨ ∃ e ∈ r.rlist, e.2 ≤ n ∧ n ≤ e.1 := by
  by_cases hln : l ≤ n
  · by_cases hnh : n ≤ h
    · exact Or.inl ⟨hln, hnh⟩
    · have hnh := UInt64.lt_iff_toNat_lt.mp (not_le.mp hnh)
      rcases ha.top_eq with ⟨-, rfl⟩ | ⟨k, hk, hnear, rfl⟩
      · exact absurd (UInt64.le_iff_toNat_le.mp hn) (not_le.mpr hnh)
      · have hkr := (SortedMap.lowerBound_eq_some_iff.mp (ha.next.trans hk)).1
        exact Or.inr ⟨k, hkr, UInt64.le_iff_toNat_le.mpr (by omega), hn⟩
  · have hln := UInt64.lt_iff_toNat_lt.mp (not_le.mp hln)
    rw [UInt64.le_iff_toNat_le] at hl
    have := ha.low_min
    have := ha.first_touches
    exact Or.inr ⟨j, ha.first, UInt64.le_iff_toNat_le.mpr (by omega), UInt64.le_iff_toNat_le.mpr (by omega)⟩

theorem Absorbs.union (ha : Absorbs r l h j i low top) (hr : r.Canonical) (hlh : l ≤ h) :
    Canonical ⟨(r.rlist.filter fun e => !inSpan j.1 i e.1).assign top low⟩ ∧
      ∀ n, n ∈ (⟨(r.rlist.filter fun e => !inSpan j.1 i e.1).assign top low⟩ : Nrange) ↔ n ∈ r ∨ l ≤ n ∧ n ≤ h := by
  refine @union_of_merge _ _ _ _ hr (top, low) (fun e => inSpan j.1 i e.1 = false ∧ e.1 ≠ top) hlh (fun e => ?_)
    (fun e he hK => ha.away hr he hK.1 hK.2) (fun e he hK => ha.inside hr he ?_) (UInt64.le_iff_toNat_le.mpr ha.low_min.1)
    ha.le_top (fun n => ha.fill)
  · simp only [SortedMap.mem_assign, SortedMap.mem_filter, Bool.not_eq_true', and_assoc]
  · rwa [not_and_or, Bool.not_eq_false, not_not] at hK

end

theorem insert_spec (hr : r.Canonical) (hlh : l ≤ h) :
    (r.insert l h).Canonical ∧ ∀ n, n ∈ r.insert l h ↔ n ∈ r ∨ l ≤ n ∧ n ≤ h := by
  unfold insert
  split
  · next hempty =>
    exact union_of_new hr hlh fun e he => absurd he (SortedMap.isEmpty_iff.mp hempty e)
  dsimp only
  split
  · next hj =>
    rw [SortedMap.lowerBound_eq_none_iff] at hj
    exact union_of_new hr hlh fun e he => Or.inl (lt_pred_iff.mp (hj e he))
  next j hj =>
  obtain ⟨hjm, hjl, hjmin⟩ := SortedMap.lowerBound_eq_some_iff.mp hj
  have hbelow : ∀ e ∈ r.rlist, e.1 < j.1 → e.1.toNat + 1 < l.toNat := fun e he hlt =>
    lt_pred_iff.mp (not_le.mp fun hle => not_le.mpr hlt (hjmin e he hle))
  have hjl' : l.toNat ≤ j.1.toNat + 1 := not_lt.mp fun hlt => not_lt.mpr hjl (lt_pred_iff.mpr hlt)
  have hfar : ∀ k, (if h < varmax then h + 1 else h) < k ↔ h.toNat + 1 < k.toNat := fun k => succ_lt_iff
  generalize (if h < varmax then h + 1 else h) = h1 at hfar
  split
  · next hij =>
    have hhj := (SortedMap.lowerBound_eq_some_iff.mp hij).2.1
    split
    · next hlj =>
      split
      · next hlt =>
        refine union_of_new hr hlh fun e he => ?_
        rcases lt_trichotomy e.1 j.1 with hej | heq | hje
        · exact Or.inl (hbelow e he hej)
        · rw [SortedMap.eq_of_mem he hjm heq]
          exact Or.inr ((hfar j.2).mp hlt)
        · have := hr.gap j hjm e he hje
          have := UInt64.le_iff_toNat_le.mp hhj
          exact Or.inr (by simp only; omega)
      · next hge => exact union_of_extend hr hjm hlj.le hhj hlh (not_lt.mp fun hlt => hge ((hfar j.2).mpr hlt)) hbelow
    · next hjl =>
      refine ⟨hr, fun n => ⟨Or.inl, ?_⟩⟩
      rintro (hn | hn)
      · exact hn
      · exact ⟨j, hjm, (not_lt.mp hjl).trans hn.1, hn.2.trans hhj⟩
  · next hij =>
    have hjh : j.1 < h := by
      by_contra hge
      refine hij (SortedMap.lowerBound_eq_some_iff.mpr ⟨hjm, not_lt.mp hge, fun e he hhe => hjmin e he ?_⟩)
      refine le_trans (not_lt.mp fun hlt => ?_) (hlh.trans hhe)
      have := lt_pred_iff.mp hlt
      omega
    split
    · next hi => exact Absorbs.union ⟨hjm, rfl, hjh, hjl', rfl, hbelow, Or.inl ⟨by simp [hi], rfl⟩⟩ hr hlh
    · next i hi =>
      split
      · next hlt =>
        refine Absorbs.union ⟨hjm, rfl, hjh, hjl', rfl, hbelow, Or.inl ⟨fun k hk => ?_, rfl⟩⟩ hr hlh
        rw [Option.mem_def, hi, Option.some_inj] at hk
        exact hk ▸ (hfar i.2).mp hlt
      · next hge =>
        have hnear : i.2.toNat ≤ h.toNat + 1 := not_lt.mp fun hlt => hge ((hfar i.2).mpr hlt)
        exact Absorbs.union ⟨hjm, rfl, hjh, hjl', rfl, hbelow, Or.inr ⟨i, hi, hnear, rfl⟩⟩ hr hlh

/-- `n` joins the range `i` that starts at `n + 1` and the range `j` that ends at `n - 1`, where these exist. -/
theorem union_of_join (hr : r.Canonical) {i j : Option (UInt64 × UInt64)}
    (hi : ∀ k ∈ i, k ∈ r.rlist ∧ k.2.toNat = n.toNat + 1) (hj : ∀ k ∈ j, k ∈ r.rlist ∧ k.1.toNat + 1 = n.toNat)
    (hother : ∀ e ∈ r.rlist, e ∈ i ∨ e ∈ j ∨ Away e (n, n))
    (hmem : ∀ e, e ∈ s.rlist ↔ e = (i.elim n (·.1), j.elim n (·.2)) ∨ e ∈ r.rlist ∧ e ∉ i ∧ e ∉ j) :
    s.Canonical ∧ ∀ x, x ∈ s ↔ x ∈ r ∨ n ≤ x ∧ x ≤ n := by
  have htop : n ≤ i.elim n (·.1) := by
    cases i with
    | none => exact le_rfl
    | some k =>
      have := UInt64.le_iff_toNat_le.mp (hr.low_le k (hi k rfl).1)
      exact UInt64.le_iff_toNat_le.mpr (by have := (hi k rfl).2; simp only [Option.elim]; omega)
  have hlow : j.elim n (·.2) ≤ n := by
    cases j with
    | none => exact le_rfl
    | some k =>
      have := UInt64.le_iff_toNat_le.mp (hr.low_le k (hj k rfl).1)
      exact UInt64.le_iff_toNat_le.mpr (by have := (hj k rfl).2; simp only [Option.elim]; omega)
  refine union_of_merge hr le_rfl hmem (fun e he hK => ?_) (fun e he hK => ?_) hlow htop (fun x hx hx' => ?_)
  · have hle := UInt64.le_iff_toNat_le.mp (hr.low_le e he)
    rcases ((hother e he).resolve_left hK.1).resolve_left hK.2 with haway | haway
    · left
      cases j with
      | none => exact haway
      | some k =>
        obtain ⟨hk, hkn⟩ := hj k rfl
        exact hr.gap e he k hk (UInt64.lt_iff_toNat_lt.mpr (by simp only at haway; omega))
    · right
      cases i with
      | none => exact haway
      | some k =>
        obtain ⟨hk, hkn⟩ := hi k rfl
        rcases lt_trichotomy k.1 e.1 with hlt | heq | hlt
        · exact hr.gap k hk e he hlt
        · exact absurd (SortedMap.eq_of_mem hk he heq ▸ rfl) hK.1
        · have := hr.gap e he k hk hlt
          simp only at haway
          omega
  · rw [not_and_or, not_not, not_not] at hK
    rcases hK with hei | hej
    · obtain ⟨-, hen⟩ := hi e hei
      rw [Option.mem_def] at hei
      subst hei
      exact ⟨hlow.trans (UInt64.le_iff_toNat_le.mpr (by omega)), le_rfl⟩
    · obtain ⟨-, hen⟩ := hj e hej
      rw [Option.mem_def] at hej
      subst hej
      exact ⟨le_rfl, le_trans (UInt64.le_iff_toNat_le.mpr (by omega)) htop⟩
  · rcases lt_trichotomy x n with hlt | rfl | hlt
    · rw [UInt64.lt_iff_toNat_lt] at hlt
      cases j with
      | none => exact absurd (UInt64.le_iff_toNat_le.mp hx) (not_le.mpr hlt)
      | some k => exact Or.inr ⟨k, (hj k rfl).1, hx, UInt64.le_iff_toNat_le.mpr (by have := (hj k rfl).2; omega)⟩
    · exact Or.inl ⟨le_rfl, le_rfl⟩
    · rw [UInt64.lt_iff_toNat_lt] at hlt
      cases i with
      | none => exact absurd (UInt64.le_iff_toNat_le.mp hx') (not_le.mpr hlt)
      | some k => exact Or.inr ⟨k, (hi k rfl).1, UInt64.le_iff_toNat_le.mpr (by have := (hi k rfl).2; omega), hx'⟩

/-- The range that ends at `n - 1`, as `insert(n)` looks it up. -/
theorem find_pred_iff {m : SortedMap UInt64 UInt64} :
    (if varmin < n then m.find? (n - 1) else none) = some e ↔ e ∈ m ∧ e.1.toNat + 1 = n.toNat := by
  have h0 : varmin.toNat = 0 := rfl
  split
  · next hpos =>
    have hpred := pred_toNat hpos
    rw [SortedMap.find?_eq_some_iff, ← UInt64.toNat_inj]
    exact and_congr_right fun _ => by omega
  · next hpos =>
    rw [UInt64.lt_iff_toNat_lt] at hpos
    simp only [reduceCtorEq, false_iff, not_and]
    intro _
    omega

section
variable {i : Option (UInt64 × UInt64)} {rlist : SortedMap UInt64 UInt64}

theorem above_of_next (hr : r.Canonical) (hi : ∀ k ∈ i, k ∈ r.rlist ∧ k.2.toNat = n.toNat + 1) :
    ∀ k ∈ i, n.toNat < k.1.toNat := fun k hk => by
  have := UInt64.le_iff_toNat_le.mp (hr.low_le k (hi k hk).1)
  have := (hi k hk).2
  omega

/-- After the range `i` above `n` was extended, the range that ends at `n - 1` is still the one of `r`. -/
theorem mem_find_pred (hr : r.Canonical) (hi : ∀ k ∈ i, k ∈ r.rlist ∧ k.2.toNat = n.toNat + 1)
    (hmem : ∀ e, e ∈ rlist ↔ (∃ k ∈ i, e = (k.1, n)) ∨ e ∈ r.rlist ∧ e ∉ i) :
    e ∈ (if varmin < n then rlist.find? (n - 1) else none) ↔ e ∈ r.rlist ∧ e.1.toNat + 1 = n.toNat := by
  rw [Option.mem_def, find_pred_iff, hmem]
  constructor
  · rintro ⟨⟨k, hk, rfl⟩ | h, hen⟩
    · have := above_of_next hr hi k hk
      simp only at hen
      omega
    · exact ⟨h.1, hen⟩
  · rintro ⟨he, hen⟩
    exact ⟨Or.inr ⟨he, fun hei => by have := above_of_next hr hi e hei; omega⟩, hen⟩

/-- The ranges after `insertJoin`, where `j` is the range that ends at `n - 1`. -/
theorem mem_insertJoin (hr : r.Canonical) {j : Option (UInt64 × UInt64)}
    (hi : ∀ k ∈ i, k ∈ r.rlist ∧ k.2.toNat = n.toNat + 1)
    (hmem : ∀ e, e ∈ rlist ↔ (∃ k ∈ i, e = (k.1, n)) ∨ e ∈ r.rlist ∧ e ∉ i) (hne : ∀ e ∈ r.rlist, e ∉ i → e.1 ≠ n)
    (hj : (if varmin < n then rlist.find? (n - 1) else none) = j) :
    e ∈ (insertJoin rlist (i.map (·.1)) n).rlist ↔
      e = (i.elim n (·.1), j.elim n (·.2)) ∨ e ∈ r.rlist ∧ e ∉ i ∧ e ∉ j := by
  have hjr : ∀ k ∈ j, k ∈ r.rlist ∧ k.1.toNat + 1 = n.toNat := fun k hk => (mem_find_pred hr hi hmem).mp (hj ▸ hk)
  have hjkey := ne_key_iff fun k hk => (hjr k hk).1
  have hikey := ne_key_iff fun k hk => (hi k hk).1
  unfold insertJoin
  rw [hj]
  cases j with
  | none =>
    cases i with
    | none =>
      simp only [Option.map_none, SortedMap.mem_assign, hmem]
      simp only [Option.not_mem_none, false_and, exists_false, false_or, not_false_eq_true, and_true, Option.elim]
      exact or_congr Iff.rfl (and_iff_left_of_imp fun he => hne e he (by simp))
    | some k =>
      simp only [Option.map_some, hmem]
      simp [Option.elim]
  | some j =>
    cases i with
    | none =>
      simp only [Option.map_none, SortedMap.mem_erase, SortedMap.mem_assign, hmem]
      simp only [Option.not_mem_none, false_and, exists_false, false_or, not_false_eq_true, and_true, true_and,
        Option.elim, or_and_right]
      refine or_congr (and_iff_left_of_imp ?_) ?_
      · rintro rfl heq
        have heq := congrArg UInt64.toNat heq
        have := (hjr j rfl).2
        simp only at heq
        omega
      · rw [and_assoc]
        refine and_congr_right fun he => ?_
        rw [hjkey e he j rfl]
        exact and_iff_right_of_imp fun _ => hne e he (by simp)
    | some k =>
      simp only [Option.map_some, SortedMap.mem_erase, SortedMap.mem_assign, hmem, Option.elim]
      constructor
      · rintro ⟨h | ⟨⟨k', hk', rfl⟩ | ⟨he, hek⟩, hne'⟩, hej⟩
        · exact Or.inl h
        · cases hk'
          exact absurd rfl hne'
        · exact Or.inr ⟨he, hek, (hjkey e he j rfl).mp hej⟩
      · rintro (rfl | ⟨he, hek, hej⟩)
        · refine ⟨Or.inl rfl, fun heq => ?_⟩
          have heq := congrArg UInt64.toNat heq
          have := above_of_next hr hi k rfl
          have := (hjr j rfl).2
          simp only at heq
          omega
        · exact ⟨Or.inr ⟨Or.inr ⟨he, hek⟩, (hikey e he k rfl).mpr hek⟩, (hjkey e he j rfl).mpr hej⟩

/-- `insertJoin` on the ranges of `r`, where the range `i` that starts at `n + 1` is extended down to `n`. -/
theorem insertJoin_spec (hr : r.Canonical) (hi : ∀ k ∈ i, k ∈ r.rlist ∧ k.2.toNat = n.toNat + 1)
    (hmem : ∀ e, e ∈ rlist ↔ (∃ k ∈ i, e = (k.1, n)) ∨ e ∈ r.rlist ∧ e ∉ i)
    (hother : ∀ e ∈ r.rlist, e.1 < n ∨ e ∈ i ∨ n.toNat + 1 < e.2.toNat) :
    (insertJoin rlist (i.map (·.1)) n).Canonical ∧ ∀ x, x ∈ insertJoin rlist (i.map (·.1)) n ↔ x ∈ r ∨ n ≤ x ∧ x ≤ n := by
  have hne : ∀ e ∈ r.rlist, e ∉ i → e.1 ≠ n := fun e he hei heq => by
    have hle := UInt64.le_iff_toNat_le.mp (hr.low_le e he)
    have heq := congrArg UInt64.toNat heq
    rcases hother e he with h | h | h
    · exact absurd (UInt64.lt_iff_toNat_lt.mp h) (by omega)
    · exact hei h
    · omega
  obtain ⟨j, hj⟩ : ∃ j, (if varmin < n then rlist.find? (n - 1) else none) = j := ⟨_, rfl⟩
  have hjr : ∀ e, e ∈ j ↔ e ∈ r.rlist ∧ e.1.toNat + 1 = n.toNat := fun e => hj ▸ mem_find_pred hr hi hmem
  refine union_of_join hr hi (fun k hk => (hjr k).mp hk) (fun e he => ?_) fun e => mem_insertJoin hr hi hmem hne hj
  rcases hother e he with h | h | h
  · rcases Nat.lt_or_ge (e.1.toNat + 1) n.toNat with h' | h'
    · exact Or.inr (Or.inr (Or.inl h'))
    · have := UInt64.lt_iff_toNat_lt.mp h
      exact Or.inr (Or.inl ((hjr e).mpr ⟨he, by omega⟩))
  · exact Or.inl h
  · exact Or.inr (Or.inr (Or.inr h))

end

theorem insertOne_spec (hr : r.Canonical) :
    (r.insertOne n).Canonical ∧ ∀ x, x ∈ r.insertOne n ↔ x ∈ r ∨ n ≤ x ∧ x ≤ n := by
  unfold insertOne
  split
  · next i hi =>
    obtain ⟨him, hin, hmin⟩ := SortedMap.lowerBound_eq_some_iff.mp hi
    have hup : ∀ e ∈ r.rlist, n ≤ e.1 → e = i ∨ i.1.toNat + 1 < e.2.toNat := fun e he hne => by
      rcases (hmin e he hne).lt_or_eq with hlt | heq
      · exact Or.inr (hr.gap i him e he hlt)
      · exact Or.inl (SortedMap.eq_of_mem he him heq.symm)
    have hin' := UInt64.le_iff_toNat_le.mp hin
    split
    · next hlow =>
      refine ⟨hr, fun x => ⟨Or.inl, ?_⟩⟩
      rintro (hx | hx)
      · exact hx
      · exact ⟨i, him, hlow.trans hx.1, hx.2.trans hin⟩
    · next hlow =>
      have hlow := UInt64.lt_iff_toNat_lt.mp (not_le.mp hlow)
      have hile := UInt64.le_iff_toNat_le.mp (hr.low_le i him)
      split
      · next hnext =>
        have hnext : i.2.toNat = n.toNat + 1 := by
          rw [hnext, UInt64.toNat_add]
          have := i.1.toNat_lt
          exact Nat.mod_eq_of_lt (by simp; omega)
        refine insertJoin_spec hr (i := some i) (fun k hk => by cases hk; exact ⟨him, hnext⟩) (fun e => ?_) fun e he => ?_
        · rw [SortedMap.mem_assign]
          simp only [Option.mem_def, Option.some.injEq, exists_eq_left']
          refine or_congr Iff.rfl (and_congr_right fun he => not_congr ⟨fun h => ?_, fun h => by rw [h]⟩)
          exact SortedMap.eq_of_mem him he h.symm
        · rcases lt_or_ge e.1 n with hlt | hge
          · exact Or.inl hlt
          · rcases hup e he hge with rfl | h
            · exact Or.inr (Or.inl rfl)
            · exact Or.inr (Or.inr (by omega))
      · next hnext =>
        refine insertJoin_spec hr (i := none) (by simp) (by simp) fun e he => ?_
        rcases lt_or_ge e.1 n with hlt | hge
        · exact Or.inl hlt
        · right; right
          rcases hup e he hge with rfl | h
          · refine lt_of_le_of_ne (by omega) fun heq => hnext (UInt64.toNat_inj.mp ?_)
            rw [UInt64.toNat_add, ← heq]
            have := e.2.toNat_lt
            exact (Nat.mod_eq_of_lt (by simp; omega)).symm
          · omega
  · next hi =>
    rw [SortedMap.lowerBound_eq_none_iff] at hi
    exact insertJoin_spec hr (i := none) (by simp) (by simp) fun e he => Or.inl (hi e he)

end Nrange
end Nget

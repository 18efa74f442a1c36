import Nget.Theorems.NrangeSets

/-! What `remove` and `invert` do to the set that a `c_nrange` stores: `remove` cuts pieces out of the
    ranges that its loop visits, which are all those that meet its interval when a stored range ends at the
    interval's end or above, or is the only one; `invert` adds the complement. -/

namespace Nget
namespace Nrange
variable {r s : Nrange} {l h n : UInt64} {e : UInt64 × UInt64}

/-! ### Removal -/

/-- `e` is a range that removing `[l, h]` leaves of the range `j`. -/
def Cut (l h : UInt64) (j e : UInt64 × UInt64) : Prop :=
  (j.1 < l ∨ h < j.2) ∧ e = j ∨ (l ≤ j.1 ∧ j.2 ≤ h) ∧ (j.2 < l ∧ e = (l - 1, j.2) ∨ h < j.1 ∧ e = (j.1, h + 1))

theorem cut_of_lt {j : UInt64 × UInt64} (hj : j.1 < l) : Cut l h j e ↔ e = j := by
  simp [Cut, hj, not_le.mpr hj]

/-- What is left of a range lies inside it. -/
theorem Cut.inside {j : UInt64 × UInt64} (hc : Cut l h j e) (hj : j.2 ≤ j.1) : j.2 ≤ e.2 ∧ e.2 ≤ e.1 ∧ e.1 ≤ j.1 := by
  rcases hc with ⟨-, rfl⟩ | ⟨⟨hlj, hjh⟩, ⟨hlt, rfl⟩ | ⟨hlt, rfl⟩⟩
  · exact ⟨le_rfl, hj, le_rfl⟩
  · have := pred_toNat hlt
    simp only [UInt64.le_iff_toNat_le, UInt64.lt_iff_toNat_lt] at *
    omega
  · have := succ_toNat hlt
    simp only [UInt64.le_iff_toNat_le, UInt64.lt_iff_toNat_lt] at *
    omega

theorem cut_of_gt {j : UInt64 × UInt64} (hj : h < j.2) : Cut l h j e ↔ e = j := by
  simp [Cut, hj, not_le.mpr hj]

/-- The ranges that the loop is still to visit, from the highest down, and the list that it works on. -/
structure ToVisit (r : Nrange) (is : List (UInt64 × UInt64)) (rlist : SortedMap UInt64 UInt64) : Prop where
  sorted : is.Pairwise fun a b => b.1 < a.1
  stored : ∀ i ∈ is, i ∈ r.rlist
  kept : ∀ i ∈ is, i ∈ rlist
  rest : ∀ e ∈ rlist, e ∈ is ∨ ∀ i ∈ is, i.1 < e.1

/-- One visit replaces `j` by what is left of it. -/
def Visit (l h : UInt64) (j : UInt64 × UInt64) (rlist rlist' : SortedMap UInt64 UInt64) : Prop :=
  ∀ e, e ∈ rlist' ↔ (e ∈ rlist ∧ e ≠ j) ∨ Cut l h j e

section
variable {j : UInt64 × UInt64} {is : List (UInt64 × UInt64)} {rlist rlist' : SortedMap UInt64 UInt64}

/-- The ranges to visit after `j` end below its low end. -/
theorem ToVisit.below (hv : ToVisit r (j :: is) rlist) (hr : r.Canonical) {i : UInt64 × UInt64} (hi : i ∈ is) : i.1 < j.2 := by
  obtain ⟨hji, -⟩ := List.pairwise_cons.mp hv.sorted
  have hgap := hr.gap i (hv.stored i (List.mem_cons_of_mem j hi)) j (hv.stored j List.mem_cons_self) (hji i hi)
  exact UInt64.lt_iff_toNat_lt.mpr (by omega)

theorem ToVisit.ne (hv : ToVisit r (j :: is) rlist) {i : UInt64 × UInt64} (hi : i ∈ is) : i ≠ j := by
  rintro rfl
  exact lt_irrefl _ ((List.pairwise_cons.mp hv.sorted).1 i hi)

/-- Only `j` has its key in the numbers of `j`. -/
theorem ToVisit.eq_of_key (hv : ToVisit r (j :: is) rlist) (hr : r.Canonical) {x : UInt64 × UInt64} (hx : x ∈ rlist)
    (hlow : j.2 ≤ x.1) (hhigh : x.1 ≤ j.1) : x = j := by
  rcases hv.rest x hx with hxi | hxi
  · rcases List.mem_cons.mp hxi with rfl | hxi
    · rfl
    · exact absurd (hv.below hr hxi) (not_lt.mpr hlow)
  · exact absurd (hxi j List.mem_cons_self) (not_lt.mpr hhigh)

theorem ToVisit.key_ne_iff (hv : ToVisit r (j :: is) rlist) (hr : r.Canonical) {x : UInt64 × UInt64} (hx : x ∈ rlist) :
    x.1 ≠ j.1 ↔ x ≠ j := by
  have hjle := hr.low_le j (hv.stored j List.mem_cons_self)
  exact not_congr ⟨fun hxj => hv.eq_of_key hr hx (hxj ▸ hjle) hxj.le, fun hxj => hxj ▸ rfl⟩

/-- A new key among the numbers of `j` displaces no range. -/
theorem ToVisit.mem_assign (hv : ToVisit r (j :: is) rlist) (hr : r.Canonical) {k v : UInt64} (hlow : j.2 ≤ k) (hhigh : k < j.1)
    {x : UInt64 × UInt64} : x ∈ rlist.assign k v ↔ x = (k, v) ∨ x ∈ rlist := by
  rw [SortedMap.mem_assign]
  refine or_congr Iff.rfl (and_iff_left_of_imp fun hx hxk => ?_)
  have hxj := hv.eq_of_key hr hx (hxk ▸ hlow) (hxk ▸ hhigh.le)
  exact hhigh.ne' (hxj ▸ hxk)

theorem ToVisit.next (hv : ToVisit r (j :: is) rlist) (hr : r.Canonical) (hstep : Visit l h j rlist rlist') :
    ToVisit r is rlist' where
  sorted := (List.pairwise_cons.mp hv.sorted).2
  stored i hi := hv.stored i (List.mem_cons_of_mem j hi)
  kept i hi := (hstep i).mpr (Or.inl ⟨hv.kept i (List.mem_cons_of_mem j hi), hv.ne hi⟩)
  rest x hx := by
    rcases (hstep x).mp hx with ⟨hx, hxj⟩ | hc
    · rcases hv.rest x hx with hxi | hxi
      · exact Or.inl ((List.mem_cons.mp hxi).resolve_left hxj)
      · exact Or.inr fun i hi => hxi i (List.mem_cons_of_mem j hi)
    · obtain ⟨hlow, hle, -⟩ := hc.inside (hr.low_le j (hv.stored j List.mem_cons_self))
      exact Or.inr fun i hi => (hv.below hr hi).trans_le (hlow.trans hle)

/-- The loop goes on after the visit of `j`. -/
theorem Visit.go_on (hstep : Visit l h j rlist rlist') (hv : ToVisit r (j :: is) rlist) (hr : r.Canonical)
    {P : Prop} (hrest : P ↔ (e ∈ rlist' ∧ e ∉ is) ∨ ∃ i ∈ is, Cut l h i e) :
    P ↔ (e ∈ rlist ∧ e ∉ j :: is) ∨ ∃ i ∈ j :: is, Cut l h i e := by
  have hjle := hr.low_le j (hv.stored j List.mem_cons_self)
  rw [hrest, hstep]
  simp only [List.mem_cons, not_or, exists_eq_or_imp]
  constructor
  · rintro (⟨⟨he, hej⟩ | hc, hei⟩ | hc)
    · exact Or.inl ⟨he, hej, hei⟩
    · exact Or.inr (Or.inl hc)
    · exact Or.inr (Or.inr hc)
  · rintro (⟨he, hej, hei⟩ | hc | hc)
    · exact Or.inl ⟨Or.inl ⟨he, hej⟩, hei⟩
    · refine Or.inl ⟨Or.inr hc, fun hei => ?_⟩
      exact absurd (hv.below hr hei) (not_lt.mpr ((hc.inside hjle).1.trans (hc.inside hjle).2.1))
    · exact Or.inr hc

/-- The loop stops after the visit of `j` where it reaches down to `l`, since nothing below is cut. -/
theorem Visit.stop (hstep : Visit l h j rlist rlist') (hv : ToVisit r (j :: is) rlist) (hr : r.Canonical) (hjl : j.2 ≤ l) :
    e ∈ rlist' ↔ (e ∈ rlist ∧ e ∉ j :: is) ∨ ∃ i ∈ j :: is, Cut l h i e := by
  have hself : ∀ i ∈ is, ∀ e, Cut l h i e ↔ e = i := fun i hi e => cut_of_lt ((hv.below hr hi).trans_le hjl)
  refine hstep.go_on hv hr ⟨fun he => ?_, ?_⟩
  · by_cases hei : e ∈ is
    · exact Or.inr ⟨e, hei, (hself e hei e).mpr rfl⟩
    · exact Or.inl ⟨he, hei⟩
  · rintro (⟨he, -⟩ | ⟨i, hi, hc⟩)
    · exact he
    · obtain rfl := (hself i hi e).mp hc
      exact (hv.next hr hstep).kept e hi

/-- A range that is not cut is left as it is. -/
theorem ToVisit.visit_self (hv : ToVisit r (j :: is) rlist) (hcut : ∀ e, Cut l h j e ↔ e = j) : Visit l h j rlist rlist := by
  intro x
  rw [hcut]
  constructor
  · intro hx
    by_cases hxj : x = j
    · exact Or.inr hxj
    · exact Or.inl ⟨hx, hxj⟩
  · rintro (⟨hx, -⟩ | rfl)
    · exact hx
    · exact hv.kept x List.mem_cons_self

/-- The key below `l` lies among the numbers of a range that starts below `l` and ends there or above. -/
theorem pred_inside (hjl : j.2 < l) (hlj : l ≤ j.1) : j.2 ≤ l - 1 ∧ l - 1 < j.1 := by
  have := pred_toNat hjl
  simp only [UInt64.le_iff_toNat_le, UInt64.lt_iff_toNat_lt] at *
  omega

/-- A range that ends in `[l, h]` is taken out, but for what lies below `l`. -/
theorem ToVisit.visit_low (hv : ToVisit r (j :: is) rlist) (hr : r.Canonical) (hlj : l ≤ j.1) (hjh : j.1 ≤ h) :
    Visit l h j rlist ((if j.2 < l then rlist.assign (l - 1) j.2 else rlist).erase j.1) := by
  intro x
  have hjle := hr.low_le j (hv.stored j List.mem_cons_self)
  have hout : ¬(j.1 < l ∨ h < j.2) := not_or.mpr ⟨not_lt.mpr hlj, not_lt.mpr (hjle.trans hjh)⟩
  split
  · next hjl =>
    obtain ⟨hlow, hhigh⟩ := pred_inside hjl hlj
    have hcut : Cut l h j x ↔ x = (l - 1, j.2) := by
      simp [Cut, hout, hlj, hjl, hjle.trans hjh, not_lt.mpr hjh]
    rw [hcut, SortedMap.mem_erase, hv.mem_assign hr hlow hhigh, or_and_right, or_comm]
    refine or_congr (and_congr_right fun hx => hv.key_ne_iff hr hx) (and_iff_left_of_imp ?_)
    rintro rfl
    exact hhigh.ne
  · next hjl =>
    have hcut : ¬Cut l h j x := by
      simp [Cut, hout, hjl, not_lt.mpr hjh]
    rw [SortedMap.mem_erase, or_iff_left hcut]
    exact and_congr_right fun hx => hv.key_ne_iff hr hx

/-- A range that ends above `h` keeps what lies above, and what lies below `l`. -/
theorem ToVisit.visit_high (hv : ToVisit r (j :: is) rlist) (hr : r.Canonical) (hlh : l ≤ h) (hhj : h < j.1) (hjh : j.2 ≤ h) :
    Visit l h j rlist ((if j.2 < l then rlist.assign (l - 1) j.2 else rlist).assign j.1 (h + 1)) := by
  intro x
  have hlj := hlh.trans hhj.le
  have hout : ¬(j.1 < l ∨ h < j.2) := not_or.mpr ⟨not_lt.mpr hlj, not_lt.mpr hjh⟩
  have hcut : Cut l h j x ↔ j.2 < l ∧ x = (l - 1, j.2) ∨ x = (j.1, h + 1) := by
    simp [Cut, hout, hlj, hjh, hhj]
  rw [hcut, SortedMap.mem_assign]
  split
  · next hjl =>
    obtain ⟨hlow, hhigh⟩ := pred_inside hjl hlj
    rw [hv.mem_assign hr hlow hhigh]
    constructor
    · rintro (hx | ⟨hx | hx, hne⟩)
      · exact Or.inr (Or.inr hx)
      · exact Or.inr (Or.inl ⟨hjl, hx⟩)
      · exact Or.inl ⟨hx, (hv.key_ne_iff hr hx).mp hne⟩
    · rintro (⟨hx, hne⟩ | ⟨-, rfl⟩ | hx)
      · exact Or.inr ⟨Or.inr hx, (hv.key_ne_iff hr hx).mpr hne⟩
      · exact Or.inr ⟨Or.inl rfl, hhigh.ne⟩
      · exact Or.inl hx
  · next hjl =>
    constructor
    · rintro (hx | ⟨hx, hne⟩)
      · exact Or.inr (Or.inr hx)
      · exact Or.inl ⟨hx, (hv.key_ne_iff hr hx).mp hne⟩
    · rintro (⟨hx, hne⟩ | ⟨hlt, -⟩ | hx)
      · exact Or.inr ⟨hx, (hv.key_ne_iff hr hx).mpr hne⟩
      · exact absurd hlt hjl
      · exact Or.inl hx

end

/-- The loop of `remove` replaces each range that it is still to visit by what is left of it. -/
theorem mem_removeLoop (hr : r.Canonical) (hlh : l ≤ h) : ∀ (is : List (UInt64 × UInt64)) (rlist : SortedMap UInt64 UInt64),
    ToVisit r is rlist → ∀ e, e ∈ removeLoop l h is rlist ↔ (e ∈ rlist ∧ e ∉ is) ∨ ∃ j ∈ is, Cut l h j e
  | [], rlist, _, e => by simp [removeLoop]
  | j :: is, rlist, hv, e => by
    have hjle := hr.low_le j (hv.stored j List.mem_cons_self)
    have hgo : ∀ rlist', Visit l h j rlist rlist' →
        (e ∈ removeLoop l h is rlist' ↔ (e ∈ rlist ∧ e ∉ j :: is) ∨ ∃ i ∈ j :: is, Cut l h i e) := fun rlist' hstep =>
      hstep.go_on hv hr (mem_removeLoop hr hlh is rlist' (hv.next hr hstep) e)
    unfold removeLoop
    split
    · next hjh =>
      split
      · next hlj => exact hgo _ (hv.visit_low hr hlj hjh)
      · next hlj =>
        have hjl := not_le.mp hlj
        exact (hv.visit_self fun e => cut_of_lt hjl).stop hv hr (hjle.trans hjl.le)
    · next hjh =>
      split
      · next hjh2 =>
        have hvisit := hv.visit_high hr hlh (not_le.mp hjh) hjh2
        split
        · next hjl =>
          rw [if_pos hjl] at hvisit
          exact hvisit.stop hv hr hjl.le
        · next hjl =>
          rw [if_neg hjl] at hvisit
          exact hgo _ hvisit
      · next hjh2 => exact hgo rlist (hv.visit_self fun e => cut_of_gt (not_le.mp hjh2))

/-- The numbers of a range that lie outside `[l, h]` are those of what is left of it. -/
theorem exists_cut_iff {j : UInt64 × UInt64} (hlh : l ≤ h) :
    (∃ e, Cut l h j e ∧ e.2 ≤ n ∧ n ≤ e.1) ↔ (j.2 ≤ n ∧ n ≤ j.1) ∧ ¬(l ≤ n ∧ n ≤ h) := by
  constructor
  · rintro ⟨e, ⟨hout, rfl⟩ | ⟨⟨hlj, hjh⟩, ⟨hlt, rfl⟩ | ⟨hlt, rfl⟩⟩, hlow, hhigh⟩
    · refine ⟨⟨hlow, hhigh⟩, fun hn => ?_⟩
      rcases hout with hout | hout
      · exact absurd (hn.1.trans hhigh) (not_le.mpr hout)
      · exact absurd (hlow.trans hn.2) (not_le.mpr hout)
    · have := pred_toNat hlt
      have := UInt64.le_iff_toNat_le.mp hlh
      simp only [UInt64.le_iff_toNat_le, UInt64.lt_iff_toNat_lt] at *
      omega
    · have := succ_toNat hlt
      simp only [UInt64.le_iff_toNat_le, UInt64.lt_iff_toNat_lt] at *
      omega
  · rintro ⟨hn, hout⟩
    by_cases hcut : j.1 < l ∨ h < j.2
    · exact ⟨j, Or.inl ⟨hcut, rfl⟩, hn⟩
    · rw [not_or, not_lt, not_lt] at hcut
      rcases lt_or_ge n l with hnl | hnl
      · have hjl := hn.1.trans_lt hnl
        have := pred_toNat hjl
        refine ⟨_, Or.inr ⟨hcut, Or.inl ⟨hjl, rfl⟩⟩, hn.1, ?_⟩
        simp only [UInt64.le_iff_toNat_le, UInt64.lt_iff_toNat_lt] at *
        omega
      · have hnh : h < n := not_le.mp fun hnh => hout ⟨hnl, hnh⟩
        have hjh := hnh.trans_le hn.2
        have := succ_toNat hjh
        refine ⟨_, Or.inr ⟨hcut, Or.inr ⟨hjh, rfl⟩⟩, ?_, hn.2⟩
        simp only [UInt64.le_iff_toNat_le, UInt64.lt_iff_toNat_lt] at *
        omega

/-- Two pieces that are left of one range are not adjacent. -/
theorem Cut.gap {j a b : UInt64 × UInt64} (hlh : l ≤ h) (ha : Cut l h j a) (hb : Cut l h j b) (hab : a.1 < b.1) :
    a.1.toNat + 1 < b.2.toNat := by
  rcases ha with ⟨hout, rfl⟩ | ⟨hin, ha⟩ <;> rcases hb with ⟨hout', rfl⟩ | ⟨hin', hb⟩
  · exact absurd hab (lt_irrefl _)
  · exact absurd hout (by simp [not_lt.mpr hin'.1, not_lt.mpr hin'.2])
  · exact absurd hout' (by simp [not_lt.mpr hin.1, not_lt.mpr hin.2])
  · rcases ha with ⟨hlt, rfl⟩ | ⟨hlt, rfl⟩ <;> rcases hb with ⟨hlt', rfl⟩ | ⟨hlt', rfl⟩
    · exact absurd hab (lt_irrefl _)
    · have := pred_toNat hlt
      have := succ_toNat hlt'
      simp only [UInt64.le_iff_toNat_le, UInt64.lt_iff_toNat_lt] at *
      omega
    · have := pred_toNat hlt'
      simp only [UInt64.le_iff_toNat_le, UInt64.lt_iff_toNat_lt] at *
      omega
    · exact absurd hab (lt_irrefl _)

/-- The range that `remove` starts from. -/
def removeStart (r : Nrange) (l h : UInt64) : Option (UInt64 × UInt64) :=
  (r.rlist.lowerBound h).or (r.rlist.lowerBound l)

/-- The loop of `remove` gets to the range `j`, since it is the one started from or lies below that. -/
def Visited (r : Nrange) (l h : UInt64) (j : UInt64 × UInt64) : Prop := ∃ i ∈ r.removeStart l h, j.1 ≤ i.1

theorem remove_eq : r.remove l h = (r.removeStart l h).elim r fun i => ⟨removeLoop l h (r.rlist.downFrom i.1) r.rlist⟩ := by
  unfold remove removeStart
  cases r.rlist.lowerBound h with
  | some i => rfl
  | none => cases r.rlist.lowerBound l <;> rfl

theorem mem_remove_rlist (hr : r.Canonical) (hlh : l ≤ h) :
    e ∈ (r.remove l h).rlist ↔ ∃ j ∈ r.rlist, r.Visited l h j ∧ Cut l h j e ∨ ¬r.Visited l h j ∧ e = j := by
  rw [remove_eq]
  unfold Visited
  cases r.removeStart l h with
  | none => simp
  | some i =>
    simp only [Option.elim, Option.mem_def, Option.some.injEq, exists_eq_left']
    have hv : ToVisit r (r.rlist.downFrom i.1) r.rlist := by
      refine ⟨SortedMap.downFrom_sorted, fun _ hi => (SortedMap.mem_downFrom.mp hi).1,
        fun _ hi => (SortedMap.mem_downFrom.mp hi).1, fun x hx => ?_⟩
      by_cases hxi : x.1 ≤ i.1
      · exact Or.inl (SortedMap.mem_downFrom.mpr ⟨hx, hxi⟩)
      · exact Or.inr fun y hy => (SortedMap.mem_downFrom.mp hy).2.trans_lt (not_le.mp hxi)
    rw [mem_removeLoop hr hlh _ _ hv e]
    simp only [SortedMap.mem_downFrom]
    constructor
    · rintro (⟨he, hne⟩ | ⟨j, ⟨hj, hji⟩, hc⟩)
      · exact ⟨e, he, Or.inr ⟨fun hle => hne ⟨he, hle⟩, rfl⟩⟩
      · exact ⟨j, hj, Or.inl ⟨hji, hc⟩⟩
    · rintro ⟨j, hj, ⟨hji, hc⟩ | ⟨hji, rfl⟩⟩
      · exact Or.inr ⟨j, ⟨hj, hji⟩, hc⟩
      · exact Or.inl ⟨hj, fun h => hji h.2⟩

/-- `remove` keeps the form, and takes `[l, h]` out of the ranges that it visits. -/
theorem remove_spec (hr : r.Canonical) (hlh : l ≤ h) :
    (r.remove l h).Canonical ∧
      ∀ n, n ∈ r.remove l h ↔ ∃ j ∈ r.rlist, (j.2 ≤ n ∧ n ≤ j.1) ∧ ¬(r.Visited l h j ∧ l ≤ n ∧ n ≤ h) := by
  have hpiece : ∀ e j, (r.Visited l h j ∧ Cut l h j e ∨ ¬r.Visited l h j ∧ e = j) → j ∈ r.rlist →
      j.2 ≤ e.2 ∧ e.2 ≤ e.1 ∧ e.1 ≤ j.1 := fun e j hej hj => by
    rcases hej with ⟨-, hc⟩ | ⟨-, rfl⟩
    · exact hc.inside (hr.low_le j hj)
    · exact ⟨le_rfl, hr.low_le e hj, le_rfl⟩
  refine ⟨⟨fun e he => ?_, fun a ha b hb hab => ?_⟩, fun n => ⟨?_, ?_⟩⟩
  · obtain ⟨j, hj, hej⟩ := (mem_remove_rlist hr hlh).mp he
    exact (hpiece e j hej hj).2.1
  · obtain ⟨j, hj, haj⟩ := (mem_remove_rlist hr hlh).mp ha
    obtain ⟨k, hk, hbk⟩ := (mem_remove_rlist hr hlh).mp hb
    have hpa := hpiece a j haj hj
    have hpb := hpiece b k hbk hk
    simp only [UInt64.le_iff_toNat_le] at hpa hpb
    rw [UInt64.lt_iff_toNat_lt] at hab
    rcases lt_trichotomy j.1 k.1 with hlt | heq | hlt
    · have := hr.gap j hj k hk hlt
      omega
    · cases SortedMap.eq_of_mem hj hk heq
      rcases haj with ⟨hv, ha⟩ | ⟨hv, rfl⟩ <;> rcases hbk with ⟨hv', hb⟩ | ⟨hv', rfl⟩
      · exact ha.gap hlh hb (UInt64.lt_iff_toNat_lt.mpr hab)
      · exact absurd hv hv'
      · exact absurd hv' hv
      · exact absurd hab (lt_irrefl _)
    · have := hr.gap k hk j hj hlt
      omega
  · rintro ⟨e, he, hn⟩
    obtain ⟨j, hj, ⟨hv, hc⟩ | ⟨hv, rfl⟩⟩ := (mem_remove_rlist hr hlh).mp he
    · have := (exists_cut_iff hlh).mp ⟨e, hc, hn⟩
      exact ⟨j, hj, this.1, fun h => this.2 h.2⟩
    · exact ⟨e, hj, hn, fun h => hv h.1⟩
  · rintro ⟨j, hj, hn, hout⟩
    by_cases hv : r.Visited l h j
    · obtain ⟨e, hc, hne⟩ := (exists_cut_iff hlh).mpr ⟨hn, fun h => hout ⟨hv, h⟩⟩
      exact ⟨e, (mem_remove_rlist hr hlh).mpr ⟨j, hj, Or.inl ⟨hv, hc⟩⟩, hne⟩
    · exact ⟨j, (mem_remove_rlist hr hlh).mpr ⟨j, hj, Or.inr ⟨hv, rfl⟩⟩, hn⟩

/-- Every number that `remove` takes out lies in `[l, h]`. -/
theorem mem_remove_of_mem (hr : r.Canonical) (hlh : l ≤ h) (hn : n ∈ r) (hout : ¬(l ≤ n ∧ n ≤ h)) : n ∈ r.remove l h := by
  obtain ⟨j, hj, hnj⟩ := hn
  exact ((remove_spec hr hlh).2 n).mpr ⟨j, hj, hnj, fun h => hout h.2⟩

theorem mem_of_mem_remove (hr : r.Canonical) (hlh : l ≤ h) (hn : n ∈ r.remove l h) : n ∈ r := by
  obtain ⟨j, hj, hnj, -⟩ := ((remove_spec hr hlh).2 n).mp hn
  exact ⟨j, hj, hnj⟩

/-- Where the loop visits every range that meets `[l, h]`, all of it is taken out. -/
theorem mem_remove_iff (hr : r.Canonical) (hlh : l ≤ h)
    (hall : ∀ j ∈ r.rlist, l ≤ j.1 → j.2 ≤ h → r.Visited l h j) :
    n ∈ r.remove l h ↔ n ∈ r ∧ ¬(l ≤ n ∧ n ≤ h) := by
  rw [(remove_spec hr hlh).2 n]
  constructor
  · rintro ⟨j, hj, hn, hout⟩
    exact ⟨⟨j, hj, hn⟩, fun h => hout ⟨hall j hj (h.1.trans hn.2) (hn.1.trans h.2), h⟩⟩
  · rintro ⟨⟨j, hj, hn⟩, hout⟩
    exact ⟨j, hj, hn, fun h => hout h.2⟩

/-- All of `[l, h]` is taken out when a stored range ends at `h` or above. -/
theorem visited_of_high (hr : r.Canonical) {k : UInt64 × UInt64} (hk : k ∈ r.rlist) (hkh : h ≤ k.1) :
    ∀ j ∈ r.rlist, l ≤ j.1 → j.2 ≤ h → r.Visited l h j := fun j hj _ hjh => by
  cases hi : r.rlist.lowerBound h with
  | none => exact absurd (SortedMap.lowerBound_eq_none_iff.mp hi k hk) (not_lt.mpr hkh)
  | some i =>
    refine ⟨i, by simp [removeStart, hi], not_lt.mp fun hij => ?_⟩
    obtain ⟨him, hhi, -⟩ := SortedMap.lowerBound_eq_some_iff.mp hi
    have := hr.gap i him j hj hij
    rw [UInt64.le_iff_toNat_le] at hhi hjh
    omega

/-- All of `[l, h]` is taken out of a map of one range. -/
theorem visited_of_single {k : UInt64 × UInt64} (hk : ∀ j ∈ r.rlist, j = k) :
    ∀ j ∈ r.rlist, l ≤ j.1 → j.2 ≤ h → r.Visited l h j := fun j hj hlj _ => by
  cases hi : r.rlist.lowerBound h with
  | some i =>
    refine ⟨i, by simp [removeStart, hi], ?_⟩
    rw [hk j hj, hk i (SortedMap.lowerBound_eq_some_iff.mp hi).1]
  | none =>
    refine ⟨j, ?_, le_rfl⟩
    simp only [removeStart, hi, Option.none_or, Option.mem_def]
    refine SortedMap.lowerBound_eq_some_iff.mpr ⟨hj, hlj, fun y hy _ => ?_⟩
    rw [hk j hj, hk y hy]

theorem removeOne_spec (hr : r.Canonical) :
    (r.removeOne n).Canonical ∧ ∀ x, x ∈ r.removeOne n ↔ x ∈ r ∧ x ≠ n := by
  refine ⟨(remove_spec hr le_rfl).1, fun x => ?_⟩
  unfold removeOne
  rw [mem_remove_iff hr le_rfl fun j hj hlj hjh => visited_of_high hr hj hlj j hj hlj hjh]
  exact and_congr_right fun _ => not_congr ⟨fun h => le_antisymm h.2 h.1, fun h => h ▸ ⟨le_rfl, le_rfl⟩⟩

/-! ### Complement -/

/-- What `invert` does after its loop. -/
def invertLast (s : Nrange × UInt64) : Nrange := if s.2 ≠ varmin then s.1.insert s.2 varmax else s.1

theorem ofNat_toNat_of_lt {N : Nat} (hN : N < 2 ^ 64) : (UInt64.ofNat N).toNat = N := by
  rw [UInt64.toNat_ofNat']
  exact Nat.mod_eq_of_lt hN

/-- After the loop the numbers from the bound `N` on are added. The bound wraps to `varmin` when the last range ends at
    `varmax`, and then nothing is left to insert. -/
theorem invertLast_spec {N : Nat} (hs : s.Canonical) (hN : N ≤ 2 ^ 64) (hpos : N ≠ 0) :
    (invertLast (s, UInt64.ofNat N)).Canonical ∧ ∀ x, x ∈ invertLast (s, UInt64.ofNat N) ↔ x ∈ s ∨ N ≤ x.toNat := by
  unfold invertLast
  rcases hN.lt_or_eq with hlt | rfl
  · have hne : UInt64.ofNat N ≠ varmin := fun h => by
      have := ofNat_toNat_of_lt hlt
      rw [h] at this
      exact hpos this.symm
    rw [if_pos hne]
    obtain ⟨hc, hmem⟩ := insert_spec hs (le_varmax (n := UInt64.ofNat N))
    refine ⟨hc, fun x => (hmem x).trans (or_congr Iff.rfl ?_)⟩
    rw [UInt64.le_iff_toNat_le, ofNat_toNat_of_lt hlt]
    exact and_iff_left le_varmax
  · rw [if_neg (by simp [varmin])]
    refine ⟨hs, fun x => (or_iff_left fun h => ?_).symm⟩
    exact absurd x.toNat_lt (not_lt.mpr h)

/-- A step adds the numbers from the bound `N` up to the range. -/
theorem invertStep_spec {N : Nat} (hs : s.Canonical) (hNe : N ≤ e.2.toNat) :
    (invertStep (s, UInt64.ofNat N) e).1.Canonical ∧
      ∀ x, x ∈ (invertStep (s, UInt64.ofNat N) e).1 ↔ x ∈ s ∨ N ≤ x.toNat ∧ x.toNat < e.2.toNat := by
  have hN := ofNat_toNat_of_lt (hNe.trans_lt e.2.toNat_lt)
  unfold invertStep
  dsimp only
  split
  · next hne =>
    have hlt : N < e.2.toNat := hNe.lt_of_ne fun h => hne (UInt64.toNat_inj.mp (hN.trans h))
    have hlt' : UInt64.ofNat N < e.2 := by rwa [UInt64.lt_iff_toNat_lt, hN]
    have hpred := pred_toNat hlt'
    have hle : UInt64.ofNat N ≤ e.2 - 1 := by
      rw [UInt64.le_iff_toNat_le, hN]
      omega
    obtain ⟨hc, hmem⟩ := insert_spec hs hle
    refine ⟨hc, fun x => (hmem x).trans (or_congr Iff.rfl ?_)⟩
    rw [UInt64.le_iff_toNat_le, UInt64.le_iff_toNat_le, hN]
    omega
  · next heq =>
    have := congrArg UInt64.toNat (not_not.mp heq)
    rw [hN] at this
    exact ⟨hs, fun x => (or_iff_left fun h => by omega).symm⟩

/-- The loop of `invert`, from the bound `N` of the numbers already dealt with. -/
theorem invertStep_foldl {N : Nat} :
    ∀ (es : List (UInt64 × UInt64)) (s : Nrange), s.Canonical → N ≤ 2 ^ 64 → (N = 0 → es ≠ []) →
      (∀ e ∈ es, N ≤ e.2.toNat ∧ e.2 ≤ e.1) → es.Pairwise (fun a b => a.1.toNat + 1 < b.2.toNat) →
      (invertLast (es.foldl invertStep (s, UInt64.ofNat N))).Canonical ∧
        ∀ x, x ∈ invertLast (es.foldl invertStep (s, UInt64.ofNat N)) ↔
          x ∈ s ∨ N ≤ x.toNat ∧ ∀ e ∈ es, ¬(e.2 ≤ x ∧ x ≤ e.1)
  | [], s, hs, hN, hne, _, _ => by
    simpa using invertLast_spec hs hN fun h => hne h rfl
  | e :: es, s, hs, hN, _, hlow, hsorted => by
    obtain ⟨hNe, hle⟩ := hlow e List.mem_cons_self
    obtain ⟨hgap, hsorted'⟩ := List.pairwise_cons.mp hsorted
    have hstep := @invertStep_spec s e N hs hNe
    have hnext : (invertStep (s, UInt64.ofNat N) e).2 = UInt64.ofNat (e.1.toNat + 1) := by
      simp [invertStep, UInt64.ofNat_add]
    rw [List.foldl_cons, ← Prod.mk.eta (p := invertStep (s, UInt64.ofNat N) e), hnext]
    obtain ⟨hc, hmem⟩ := invertStep_foldl (N := e.1.toNat + 1) es _ hstep.1 e.1.toNat_lt (by simp)
      (fun k hk => ⟨(hgap k hk).le, (hlow k (List.mem_cons_of_mem _ hk)).2⟩) hsorted'
    refine ⟨hc, fun x => ?_⟩
    rw [hmem x, hstep.2 x]
    have hle := UInt64.le_iff_toNat_le.mp hle
    simp only [List.mem_cons, forall_eq_or_imp, UInt64.le_iff_toNat_le]
    constructor
    · rintro ((hx | hx) | ⟨hx, hout⟩)
      · exact Or.inl hx
      · refine Or.inr ⟨hx.1, by omega, fun k hk hkx => ?_⟩
        have := hgap k hk
        omega
      · exact Or.inr ⟨by omega, by omega, hout⟩
    · rintro (hx | ⟨hx, hxe, hout⟩)
      · exact Or.inl (Or.inl hx)
      · rcases Nat.lt_or_ge x.toNat e.2.toNat with hlt | hge
        · exact Or.inl (Or.inr ⟨hx, hlt⟩)
        · exact Or.inr ⟨by omega, hout⟩

theorem invert_spec {this : Nrange} (ht : this.Canonical) (hr : r.Canonical) :
    (this.invert r).Canonical ∧ ∀ n, n ∈ this.invert r ↔ n ∈ this ∨ n ∉ r := by
  have hmin : ∀ x : UInt64, varmin ≤ x := fun x => UInt64.le_iff_toNat_le.mpr (Nat.zero_le _)
  unfold invert
  split
  · next hempty =>
    obtain ⟨hc, hmem⟩ := insert_spec ht (le_varmax (n := varmin))
    exact ⟨hc, fun n => (hmem n).trans (or_congr Iff.rfl
      ⟨fun _ => (empty_iff hr).mp hempty n, fun _ => ⟨hmin n, le_varmax⟩⟩)⟩
  · next hempty =>
    have hne : r.rlist.entries ≠ [] := fun h => hempty (by simp [empty, SortedMap.isEmpty, h])
    obtain ⟨hc, hmem⟩ := invertStep_foldl (N := 0) r.rlist.entries this ht (by omega) (fun _ => hne)
      (fun e he => ⟨Nat.zero_le _, hr.low_le e he⟩)
      (r.rlist.sorted.imp_of_mem fun ha hb hab => hr.gap _ ha _ hb hab)
    refine ⟨hc, fun n => (hmem n).trans (or_congr Iff.rfl ?_)⟩
    simp [mem_def, SortedMap.mem_def]

end Nrange
end Nget

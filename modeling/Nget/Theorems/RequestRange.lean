import Nget.Dogroup
import Nget.Theorems.CacheRun

/-! The range of headers that an update requests (`intervalUpdate`). With `fullxover` off it is the part of
    the server's interval that the cached interval does not cover, with `fullxover` on it is the server's
    interval less the cached numbers. `request_ok_iff` says exactly when it is what it is meant to be; the
    cases where it is not are a raised low end that the cached interval lies below, a cached interval
    above the server's, an empty group and a server with only article 0. -/

namespace Nget
open Nrange (Canonical)

namespace NntpCache
variable {c : NntpCache} {serverid n : UInt64} {r : Nrange}

/-- The cache has the server's article of this number. -/
def Cached (c : NntpCache) (serverid n : UInt64) : Prop :=
  ∃ sa ∈ articles c.files, sa.serverid = serverid ∧ sa.articlenum = n

/-- One article of `getxrange`'s loops. -/
def xrangeStep (serverid : UInt64) (range : Nrange) (sa : NntpServerArticle) : Nrange :=
  if sa.serverid = serverid then range.removeOne sa.articlenum else range

theorem getxrangeOf_eq : c.getxrangeOf serverid r = (articles c.files).foldl (xrangeStep serverid) r := by
  unfold getxrangeOf articles NntpFile.articles
  simp only [List.foldl_flatMap]
  rfl

theorem foldl_xrangeStep : ∀ (sas : List NntpServerArticle) (r : Nrange), r.Canonical →
    (sas.foldl (xrangeStep serverid) r).Canonical ∧
      ∀ n, n ∈ sas.foldl (xrangeStep serverid) r ↔ n ∈ r ∧ ¬∃ sa ∈ sas, sa.serverid = serverid ∧ sa.articlenum = n
  | [], r, hr => by simpa using hr
  | sa :: sas, r, hr => by
    have hstep : (xrangeStep serverid r sa).Canonical ∧
        ∀ n, n ∈ xrangeStep serverid r sa ↔ n ∈ r ∧ ¬(sa.serverid = serverid ∧ sa.articlenum = n) := by
      unfold xrangeStep
      split
      · next hs =>
        obtain ⟨hc, hmem⟩ := Nrange.removeOne_spec (n := sa.articlenum) hr
        exact ⟨hc, fun n => by rw [hmem n]; simp [hs, eq_comm]⟩
      · next hs => exact ⟨hr, fun n => by simp [hs]⟩
    obtain ⟨hc, hmem⟩ := foldl_xrangeStep sas _ hstep.1
    refine ⟨hc, fun n => ?_⟩
    rw [List.foldl_cons, hmem n, hstep.2 n]
    simp only [List.mem_cons, exists_eq_or_imp, not_or, and_assoc]

/-- `getxrange` takes the cached numbers out of the range. -/
theorem getxrangeOf_spec (hr : r.Canonical) : (c.getxrangeOf serverid r).Canonical ∧
    ∀ n, n ∈ c.getxrangeOf serverid r ↔ n ∈ r ∧ ¬c.Cached serverid n := by
  rw [getxrangeOf_eq]
  exact foldl_xrangeStep _ r hr

end NntpCache

/-! ### The effective low end -/

section
variable {cfg : UpdateConfig} {low high n : UInt64} {c : NntpCache} {st : Session} {now : Int64}

/-- The low end raised so that at most `maxheaders` numbers up to `high` remain. -/
def raisedLow (cfg : UpdateConfig) (low high : UInt64) : Nat :=
  if cfg.maxheaders = -1 then low.toNat else max low.toNat (high.toNat + 1 - cfg.maxheaders.toInt.toNat)

/-- No number may be requested, and the one above `ULONG_MAX` does not exist. -/
def Wraps (cfg : UpdateConfig) (high : UInt64) : Prop := cfg.maxheaders = 0 ∧ high = Nrange.varmax

instance : Decidable (Wraps cfg high) := inferInstanceAs (Decidable (_ ∧ _))

theorem toNat_maxheadersUlong (h : cfg.maxheaders ≠ -1) : cfg.maxheadersUlong.toNat = cfg.maxheaders.toInt.toNat := by
  have hge := Int32.le_iff_toInt_le.mp cfg.maxheaders_ge
  have hneg : (-1 : Int32).toInt = -1 := rfl
  have hne : cfg.maxheaders.toInt ≠ -1 := fun heq => h (Int32.toInt_inj.mp (heq.trans hneg.symm))
  have hlt := cfg.maxheaders.toInt_lt
  have h64 := Int32.toInt_toInt64 cfg.maxheaders
  have hbits : cfg.maxheaders.toInt64.toInt = (cfg.maxheaders.toInt64.toUInt64.toNat : Int).bmod (2 ^ 64) := by
    rw [← Int64.toInt_toBitVec, BitVec.toInt_eq_toNat_bmod]
    rfl
  have hlt64 := cfg.maxheaders.toInt64.toUInt64.toNat_lt
  unfold UpdateConfig.maxheadersUlong
  rw [Int.bmod_def] at hbits
  split at hbits <;> omega

theorem toNat_maxheaders_eq_zero (h : cfg.maxheaders ≠ -1) : cfg.maxheaders.toInt.toNat = 0 ↔ cfg.maxheaders = 0 := by
  have hge := Int32.le_iff_toInt_le.mp cfg.maxheaders_ge
  have hneg : (-1 : Int32).toInt = -1 := rfl
  have hne : cfg.maxheaders.toInt ≠ -1 := fun heq => h (Int32.toInt_inj.mp (heq.trans hneg.symm))
  rw [← Int32.toInt_inj, Int32.toInt_zero]
  omega

/-- The code's low end is the raised one, except where the one above `ULONG_MAX` wraps to 0. -/
theorem toNat_effectiveLow (hw : ¬Wraps cfg high) : (effectiveLow cfg low high).toNat = raisedLow cfg low high := by
  unfold effectiveLow raisedLow
  by_cases hm : cfg.maxheaders = -1
  · simp [hm]
  · have hN := toNat_maxheadersUlong hm
    have hzero := toNat_maxheaders_eq_zero hm
    have hmax : high = Nrange.varmax ↔ high.toNat = 2 ^ 64 - 1 := by
      rw [← UInt64.toNat_inj, Nrange.toNat_varmax]
    have hh := high.toNat_lt
    have hsub : cfg.maxheadersUlong ≤ high →
      (high - cfg.maxheadersUlong + 1).toNat = high.toNat + 1 - cfg.maxheaders.toInt.toNat :=
      fun hle => by
        rw [UInt64.toNat_add, UInt64.toNat_sub_of_le _ _ hle, hN, UInt64.toNat_one]
        rw [UInt64.le_iff_toNat_le, hN] at hle
        unfold Wraps at hw
        rw [← hzero, hmax] at hw
        rw [Nat.mod_eq_of_lt (by omega)]
        omega
    simp only [ne_eq, hm, not_false_eq_true, decide_true, Bool.true_and, Bool.and_eq_true, decide_eq_true_eq, if_false]
    split
    · next hcond =>
      have := UInt64.lt_iff_toNat_lt.mp hcond.2
      rw [hsub hcond.1] at this ⊢
      omega
    · next hcond =>
      by_cases hle : cfg.maxheadersUlong ≤ high
      · have hge : ¬low < high - cfg.maxheadersUlong + 1 := fun hlt => hcond ⟨hle, hlt⟩
        rw [UInt64.lt_iff_toNat_lt, hsub hle] at hge
        omega
      · rw [UInt64.le_iff_toNat_le, hN] at hle
        omega

theorem effectiveLow_of_wraps (hw : Wraps cfg high) : effectiveLow cfg low high = low := by
  obtain ⟨hm, rfl⟩ := hw
  have : cfg.maxheadersUlong = 0 := by
    unfold UpdateConfig.maxheadersUlong
    rw [hm]
    rfl
  unfold effectiveLow
  rw [this, if_neg]
  simp [Nrange.varmax]

theorem raisedLow_of_wraps (hw : Wraps cfg high) : raisedLow cfg low high = 2 ^ 64 := by
  obtain ⟨hm, rfl⟩ := hw
  have := low.toNat_lt
  have hv := Nrange.toNat_varmax
  unfold raisedLow
  rw [if_neg (by rw [hm]; decide), hm, Int32.toInt_zero, hv]
  simp
  omega

/-! ### What the request is meant to be -/

/-- What the mode treats as cached: the cached interval, or the cached numbers. -/
def AlreadyCached (cfg : UpdateConfig) (c : NntpCache) (n : UInt64) : Prop :=
  if cfg.fullxover = 0 then (c.servinfo cfg.serverid).low ≤ n ∧ n ≤ (c.servinfo cfg.serverid).high
  else c.Cached cfg.serverid n

/-- The request has well-formed ranges and exactly the numbers from the raised low end to `high` that are not
    cached, so at most `maxheaders` of them. -/
structure RequestOk (cfg : UpdateConfig) (c : NntpCache) (low high : UInt64) (r : Nrange) : Prop where
  wellFormed : ∀ e ∈ r.rlist, e.2 ≤ e.1
  not_below : ∀ n ∈ r, raisedLow cfg low high ≤ n.toNat
  not_above : ∀ n ∈ r, n ≤ high
  not_cached : ∀ n ∈ r, ¬AlreadyCached cfg c n
  all : ∀ n, raisedLow cfg low high ≤ n.toNat → n ≤ high → ¬AlreadyCached cfg c n → n ∈ r
  total : cfg.maxheaders ≠ -1 → ∀ ns : Finset UInt64, (∀ n ∈ ns, n ∈ r) → ns.card ≤ cfg.maxheaders.toInt.toNat

/-- When the request is what it is meant to be. -/
def RequestCondition (cfg : UpdateConfig) (c : NntpCache) (low high : UInt64) : Prop :=
  let l := raisedLow cfg low high
  let cached := c.servinfo cfg.serverid
  if cfg.fullxover = 0 then
    if cached.high = 0 then l ≤ high.toNat ∧ ¬(cached.low = 0 ∧ l = 0)
    else (cached.high < high → l ≤ cached.high.toNat + 1) ∧ (l < cached.low.toNat → cached.low.toNat ≤ high.toNat + 1) ∧
      ¬(Wraps cfg high ∧ low < cached.low)
  else
    l ≤ high.toNat ∨ (Wraps cfg high ∧ ∀ n, low ≤ n → c.Cached cfg.serverid n) ∨
      (¬Wraps cfg high ∧ c.Cached cfg.serverid high ∧ (cached.low = 0 ∨ cached.high = Nrange.varmax))

/-- A set that has the right numbers is a request that is right. -/
theorem requestOk_of_mem {r : Nrange} (hr : r.Canonical)
    (hmem : ∀ n, n ∈ r ↔ (raisedLow cfg low high ≤ n.toNat ∧ n ≤ high) ∧ ¬AlreadyCached cfg c n) :
    RequestOk cfg c low high r where
  wellFormed := hr.low_le
  not_below n hn := ((hmem n).mp hn).1.1
  not_above n hn := ((hmem n).mp hn).1.2
  not_cached n hn := ((hmem n).mp hn).2
  all n hlow hhigh hnot := (hmem n).mpr ⟨⟨hlow, hhigh⟩, hnot⟩
  total hm ns hns := by
    have hsub : ns.map ⟨UInt64.toNat, fun _ _ => UInt64.toNat_inj.mp⟩ ⊆ Finset.Icc (raisedLow cfg low high) high.toNat := by
      intro x hx
      obtain ⟨n, hn, rfl⟩ := Finset.mem_map.mp hx
      have := ((hmem n).mp (hns n hn)).1
      exact Finset.mem_Icc.mpr ⟨this.1, UInt64.le_iff_toNat_le.mp this.2⟩
    have hcard := Finset.card_le_card hsub
    rw [Finset.card_map, Nat.card_Icc] at hcard
    unfold raisedLow at hcard
    rw [if_neg hm] at hcard
    omega

theorem RequestOk.mem_iff {r : Nrange} (h : RequestOk cfg c low high r) :
    n ∈ r ↔ (raisedLow cfg low high ≤ n.toNat ∧ n ≤ high) ∧ ¬AlreadyCached cfg c n :=
  ⟨fun hn => ⟨⟨h.not_below n hn, h.not_above n hn⟩, h.not_cached n hn⟩, fun hn => h.all n hn.1.1 hn.1.2 hn.2⟩

/-! ### The cache after the flush -/

/-- The articles of the server lie in its interval. -/
def Inside (c : NntpCache) (serverid : UInt64) : Prop := ∀ sa ∈ NntpCache.articles c.files, sa.serverid = serverid →
  (c.servinfo serverid).low ≤ sa.articlenum ∧ sa.articlenum ≤ (c.servinfo serverid).high

theorem flushBelow_interval :
    ((flushBelow cfg low st now).cache.servinfo cfg.serverid).high = (st.cache.servinfo cfg.serverid).high ∧
      ((flushBelow cfg low st now).cache.servinfo cfg.serverid).low = max (st.cache.servinfo cfg.serverid).low low := by
  unfold flushBelow
  split
  · next hlt =>
    refine ⟨NntpCache.high_flushlow, ?_⟩
    show ((st.cache.flushlow cfg.serverid low st.midinfo now).1.servinfo cfg.serverid).low = _
    rw [NntpCache.servinfo_flushlow, if_pos rfl, max_eq_right hlt.le]
  · next hge => exact ⟨rfl, (max_eq_left (not_lt.mp hge)).symm⟩

/-- What stays cached: the numbers from `low` on, and those below it that the flush does not reach. -/
theorem flushBelow_cached (hin : Inside st.cache cfg.serverid) :
    (flushBelow cfg low st now).cache.Cached cfg.serverid n ↔ st.cache.Cached cfg.serverid n ∧
      (n < low → (st.cache.servinfo cfg.serverid).low = 0 ∨ (st.cache.servinfo cfg.serverid).high = Nrange.varmax) := by
  have hmaxle : (st.cache.servinfo cfg.serverid).high ≤ Nrange.varmax := Nrange.le_varmax
  unfold flushBelow
  split
  · next hlt =>
    have hpos : 0 < low := lt_of_le_of_lt (by grind) hlt
    unfold NntpCache.Cached
    show (∃ sa ∈ NntpCache.articles (st.cache.flushlow cfg.serverid low st.midinfo now).1.files, _) ↔ _
    rw [NntpCache.articles_flushlow]
    constructor
    · rintro ⟨sa, hsa, hs, rfl⟩
      obtain ⟨hsa, hstay⟩ := List.mem_filter.mp hsa
      refine ⟨⟨sa, hsa, hs, rfl⟩, fun hn => ?_⟩
      by_contra hreach
      rw [not_or] at hreach
      have hall := (NntpCache.flushes_low hpos fun hs => (hin sa hsa hs).2).mpr
        ⟨⟨hs, hn⟩, ⟨by grind, (hin sa hsa hs).1⟩, lt_of_le_of_ne hmaxle hreach.2⟩
      simp [hall] at hstay
    · rintro ⟨⟨sa, hsa, hs, rfl⟩, hreach⟩
      refine ⟨sa, List.mem_filter.mpr ⟨hsa, ?_⟩, hs, rfl⟩
      rw [Bool.not_eq_true', ← Bool.not_eq_true, NntpCache.flushes_low hpos fun hs => (hin sa hsa hs).2]
      rintro ⟨⟨-, hn⟩, ⟨hlow, -⟩, hhigh⟩
      rcases hreach hn with h0 | hmax
      · exact absurd hlow (by rw [h0]; exact lt_irrefl _)
      · exact absurd hhigh (by rw [hmax]; exact lt_irrefl _)
  · next hge =>
    refine (and_iff_left_of_imp ?_).symm
    rintro ⟨sa, hsa, hs, rfl⟩ hn
    exact absurd ((not_lt.mp hge).trans (hin sa hsa hs).1) (not_le.mpr hn)

/-! ### The request without `fullxover` -/

/-- A range whose ends are the wrong way round is not well formed. -/
theorem not_requestOk_insert {r : Nrange} {a b : UInt64} (h : (b, a) ∈ r.rlist) (hab : b < a) :
    ¬RequestOk cfg c low high r := fun hok => absurd (hok.wellFormed _ h) (not_le.mpr hab)

theorem mem_insert_empty {a b : UInt64} : (b, a) ∈ ((∅ : Nrange).insert a b).rlist := by
  show (b, a) ∈ SortedMap.assign _ b a
  simp

theorem interval_first (hx : cfg.fullxover = 0) (hsh : (c.servinfo cfg.serverid).high = 0)
    {c' : NntpCache} (hhigh : (c'.servinfo cfg.serverid).high = (c.servinfo cfg.serverid).high) :
    RequestOk cfg c low high (intervalRange cfg (effectiveLow cfg low high) high c') ↔ RequestCondition cfg c low high := by
  have hr : intervalRange cfg (effectiveLow cfg low high) high c' = (∅ : Nrange).insert (effectiveLow cfg low high) high := by
    simp [intervalRange, hx, hhigh, hsh]
  unfold RequestCondition
  simp only [hx, hsh, if_true]
  rw [hr]
  have hcached : ∀ n, AlreadyCached cfg c n ↔ (c.servinfo cfg.serverid).low = 0 ∧ n = 0 := fun n => by
    simp only [AlreadyCached, hx, if_true, hsh]
    grind
  by_cases hw : Wraps cfg high
  · have hraised := @raisedLow_of_wraps _ low _ hw
    have hh := high.toNat_lt
    rw [effectiveLow_of_wraps hw, hraised]
    refine ⟨fun hok => ?_, fun h => by omega⟩
    have hmax : low ≤ high := hw.2 ▸ Nrange.le_varmax
    have hmem := (Nrange.insert_spec Nrange.canonical_empty hmax).2 high
    have := hok.not_below high (hmem.mpr (Or.inr ⟨hmax, le_rfl⟩))
    omega
  · rw [← toNat_effectiveLow hw]
    have hlow := @toNat_effectiveLow _ low _ hw
    generalize effectiveLow cfg low high = l at *
    by_cases hle : l ≤ high
    · obtain ⟨hc, hmem⟩ := Nrange.insert_spec Nrange.canonical_empty hle
      have hle' := UInt64.le_iff_toNat_le.mp hle
      have hzero : l.toNat = 0 ↔ l = 0 := by rw [← UInt64.toNat_inj]; rfl
      constructor
      · refine fun hok => ⟨hle', fun ⟨hsl, hl⟩ =>
          hok.not_cached 0 ((hmem 0).mpr (Or.inr ⟨?_, ?_⟩)) ((hcached 0).mpr ⟨hsl, rfl⟩)⟩
        · exact (hzero.mp hl).le
        · grind
      · rintro ⟨-, hnot⟩
        refine requestOk_of_mem hc fun n => ?_
        have hempty := Nrange.not_mem_empty (n := n)
        rw [hmem n, hcached, ← hlow, ← UInt64.le_iff_toNat_le]
        rw [hzero] at hnot
        constructor
        · rintro (hn | hn)
          · exact absurd hn hempty
          · refine ⟨hn, fun ⟨hsl, hn0⟩ => hnot ⟨hsl, ?_⟩⟩
            have := hn.1
            grind
        · exact fun hn => Or.inr hn.1
    · refine ⟨fun hok => absurd hok (not_requestOk_insert mem_insert_empty (not_le.mp hle)), fun h => ?_⟩
      exact absurd (UInt64.le_iff_toNat_le.mpr h.1) hle

/-- The range of the mode without `fullxover` when the cache has an interval: what lies above it, and what
    lies below it. -/
theorem interval_spec {sl sh l : UInt64} :
    let r := if sh < high then (∅ : Nrange).insert (sh + 1) high else ∅
    let r := if l < sl then r.insert l (sl - 1) else r
    r.Canonical ∧ ∀ n, n ∈ r ↔ (sh < n ∧ n ≤ high) ∨ (l ≤ n ∧ n < sl) := by
  intro r1 r
  have h1 : r1.Canonical ∧ ∀ n, n ∈ r1 ↔ sh < n ∧ n ≤ high := by
    simp only [r1]
    split
    · next hlt =>
      obtain ⟨hc, hmem⟩ := Nrange.insert_spec Nrange.canonical_empty (l := sh + 1) (h := high) (by grind)
      refine ⟨hc, fun n => ?_⟩
      have hempty := Nrange.not_mem_empty (n := n)
      rw [hmem n]
      grind
    · next hge =>
      refine ⟨Nrange.canonical_empty, fun n => ?_⟩
      have hempty := Nrange.not_mem_empty (n := n)
      grind
  simp only [r]
  split
  · next hlt =>
    obtain ⟨hc, hmem⟩ := Nrange.insert_spec h1.1 (l := l) (h := sl - 1) (by grind)
    refine ⟨hc, fun n => ?_⟩
    rw [hmem n, h1.2 n]
    grind
  · next hge =>
    refine ⟨h1.1, fun n => ?_⟩
    rw [h1.2 n]
    grind

theorem interval_next (hx : cfg.fullxover = 0) (hsh : (c.servinfo cfg.serverid).high ≠ 0) {c' : NntpCache}
    (hhigh : (c'.servinfo cfg.serverid).high = (c.servinfo cfg.serverid).high)
    (hlow : (c'.servinfo cfg.serverid).low = max (c.servinfo cfg.serverid).low (effectiveLow cfg low high)) :
    RequestOk cfg c low high (intervalRange cfg (effectiveLow cfg low high) high c') ↔ RequestCondition cfg c low high := by
  unfold RequestCondition intervalRange
  simp only [hx, hsh, if_true, if_false, hhigh, hlow, ne_eq, not_true_eq_false]
  generalize hsl : (c.servinfo cfg.serverid).low = sl
  generalize hsheq : (c.servinfo cfg.serverid).high = sh at hsh
  have hmaxlt : effectiveLow cfg low high < max sl (effectiveLow cfg low high) ↔ effectiveLow cfg low high < sl := by simp
  have hmaxeq : effectiveLow cfg low high < sl → max sl (effectiveLow cfg low high) = sl := fun h => max_eq_left h.le
  have hr : (if effectiveLow cfg low high < max sl (effectiveLow cfg low high) then
        (if sh < high then (∅ : Nrange).insert (sh + 1) high else ∅).insert (effectiveLow cfg low high)
          (max sl (effectiveLow cfg low high) - 1)
      else if sh < high then (∅ : Nrange).insert (sh + 1) high else ∅) =
      if effectiveLow cfg low high < sl then
        (if sh < high then (∅ : Nrange).insert (sh + 1) high else ∅).insert (effectiveLow cfg low high) (sl - 1)
      else if sh < high then (∅ : Nrange).insert (sh + 1) high else ∅ := by
    by_cases h : effectiveLow cfg low high < sl
    · rw [if_pos (hmaxlt.mpr h), if_pos h, hmaxeq h]
    · rw [if_neg (mt hmaxlt.mp h), if_neg h]
  rw [hr]
  obtain ⟨hc, hmem⟩ := @interval_spec high sl sh (effectiveLow cfg low high)
  generalize (if effectiveLow cfg low high < sl then
    (if sh < high then (∅ : Nrange).insert (sh + 1) high else ∅).insert (effectiveLow cfg low high) (sl - 1)
    else if sh < high then (∅ : Nrange).insert (sh + 1) high else ∅) = r at hc hmem
  have hcached : ∀ n, AlreadyCached cfg c n ↔ sl ≤ n ∧ n ≤ sh := fun n => by
    simp only [AlreadyCached, hx, if_true, hsl, hsheq]
  have hh := high.toNat_lt
  constructor
  · intro hok
    refine ⟨fun hlt => ?_, fun hlt => ?_, fun ⟨hw, hlt⟩ => ?_⟩
    · have hn := hok.not_below (sh + 1) ((hmem _).mpr (Or.inl (by grind)))
      have := Nrange.succ_toNat hlt
      omega
    · have hw : ¬Wraps cfg high := fun hw => by
        have := @raisedLow_of_wraps _ low _ hw
        have := sl.toNat_lt
        omega
      rw [← toNat_effectiveLow hw] at hlt
      have hn := hok.not_above (sl - 1) ((hmem _).mpr (Or.inr (by
        rw [← UInt64.lt_iff_toNat_lt] at hlt
        grind)))
      have := Nrange.pred_toNat (UInt64.lt_iff_toNat_lt.mpr hlt)
      rw [UInt64.le_iff_toNat_le] at hn
      omega
    · have hn := hok.not_below low ((hmem _).mpr (Or.inr ⟨(effectiveLow_of_wraps hw).le, hlt⟩))
      rw [raisedLow_of_wraps hw] at hn
      exact absurd low.toNat_lt (not_lt.mpr hn)
  · rintro ⟨habove, hbelow, hwrap⟩
    refine requestOk_of_mem hc fun n => ?_
    rw [hmem n, hcached]
    have hn := n.toNat_lt
    by_cases hw : Wraps cfg high
    · have hraised := @raisedLow_of_wraps _ low _ hw
      have hsl' : sl ≤ low := not_lt.mp fun hlt => hwrap ⟨hw, hlt⟩
      have hge : high ≤ sh := not_lt.mp fun hlt => by
        have := habove hlt
        have := UInt64.lt_iff_toNat_lt.mp hlt
        omega
      rw [effectiveLow_of_wraps hw, hraised]
      simp only [UInt64.le_iff_toNat_le, UInt64.lt_iff_toNat_lt] at *
      omega
    · rw [← toNat_effectiveLow hw] at habove hbelow ⊢
      simp only [UInt64.le_iff_toNat_le, UInt64.lt_iff_toNat_lt] at *
      omega

/-! ### The request with `fullxover` -/

theorem getxrange_eq {c' : NntpCache} (hx : cfg.fullxover ≠ 0) {l : UInt64} (hlow : l ≤ (c'.servinfo cfg.serverid).low) :
    intervalRange cfg l high c' = c'.getxrangeOf cfg.serverid ((∅ : Nrange).insert l high) := by
  have : (if l < (c'.servinfo cfg.serverid).low then l else (c'.servinfo cfg.serverid).low) = l := by
    split
    · rfl
    · exact le_antisymm (not_lt.mp ‹_›) hlow
  simp only [intervalRange, hx, ne_eq, not_false_eq_true, if_true, NntpCache.getxrange, this]

theorem insert_empty {a b : UInt64} : ((∅ : Nrange).insert a b).rlist.entries = [(b, a)] := rfl

/-- Of a range whose ends are the wrong way round, `remove` takes out only the number at its high end, and
    the range with it. -/
theorem removeOne_malformed {a b : UInt64} (hab : b < a) :
    ((∅ : Nrange).insert a b).removeOne n = if n = b then ∅ else (∅ : Nrange).insert a b := by
  have hbound : ((∅ : Nrange).insert a b).rlist.lowerBound n = if n ≤ b then some (b, a) else none := by
    unfold SortedMap.lowerBound
    rw [insert_empty]
    by_cases h : n ≤ b <;> simp [h]
  have hdown : ((∅ : Nrange).insert a b).rlist.downFrom b = [(b, a)] := by
    unfold SortedMap.downFrom
    rw [insert_empty]
    simp
  unfold Nrange.removeOne Nrange.remove
  rw [hbound]
  by_cases hle : n ≤ b
  · rw [if_pos hle]
    dsimp only
    rw [hdown]
    by_cases heq : n = b
    · subst heq
      rw [if_pos rfl]
      refine congrArg Nrange.mk (SortedMap.ext_mem fun x => ?_)
      simp only [Nrange.removeLoop, le_refl, if_true, lt_asymm hab, if_false]
      rw [SortedMap.mem_erase, SortedMap.mem_def, insert_empty]
      simp only [List.mem_singleton]
      exact iff_of_false (fun h => h.2 (by rw [h.1])) SortedMap.not_mem_empty
    · have hbn : ¬b ≤ n := fun h => heq (le_antisymm hle h)
      have han : ¬a ≤ n := not_le.mpr (hle.trans_lt hab)
      rw [if_neg heq]
      simp [Nrange.removeLoop, hbn, han]
  · rw [if_neg hle, if_neg fun h => hle h.le]

theorem xrangeStep_empty {serverid : UInt64} {sa : NntpServerArticle} : NntpCache.xrangeStep serverid ∅ sa = ∅ := by
  unfold NntpCache.xrangeStep
  split <;> rfl

theorem foldl_malformed {serverid a b : UInt64} (hab : b < a) : ∀ sas : List NntpServerArticle,
    sas.foldl (NntpCache.xrangeStep serverid) ((∅ : Nrange).insert a b) =
      if ∃ sa ∈ sas, sa.serverid = serverid ∧ sa.articlenum = b then ∅ else (∅ : Nrange).insert a b
  | [] => by simp
  | sa :: sas => by
    have hempty : sas.foldl (NntpCache.xrangeStep serverid) ∅ = ∅ := by
      induction sas with
      | nil => rfl
      | cons sa sas ih => rw [List.foldl_cons, xrangeStep_empty, ih]
    rw [List.foldl_cons]
    by_cases hsa : sa.serverid = serverid ∧ sa.articlenum = b
    · rw [NntpCache.xrangeStep, if_pos hsa.1, removeOne_malformed hab, if_pos hsa.2, hempty,
        if_pos ⟨sa, List.mem_cons_self, hsa⟩]
    · have hstep : NntpCache.xrangeStep serverid ((∅ : Nrange).insert a b) sa = (∅ : Nrange).insert a b := by
        unfold NntpCache.xrangeStep
        split
        · next hs => rw [removeOne_malformed hab, if_neg fun hn => hsa ⟨hs, hn⟩]
        · rfl
      rw [hstep, foldl_malformed hab sas]
      simp [hsa]

theorem interval_fullxover (hx : cfg.fullxover ≠ 0) (hin : Inside st.cache cfg.serverid) :
    RequestOk cfg st.cache low high (intervalRange cfg (effectiveLow cfg low high) high
      (flushBelow cfg (effectiveLow cfg low high) st now).cache) ↔ RequestCondition cfg st.cache low high := by
  have hlow := (@flushBelow_interval cfg (effectiveLow cfg low high) st now).2
  have hstay := fun n => @flushBelow_cached cfg (effectiveLow cfg low high) n _ now hin
  generalize (flushBelow cfg (effectiveLow cfg low high) st now).cache = c' at *
  rw [getxrange_eq hx (hlow ▸ le_max_right _ _)]
  have hcached : ∀ n, AlreadyCached cfg st.cache n ↔ st.cache.Cached cfg.serverid n := fun n => by
    simp only [AlreadyCached, hx, if_false]
  unfold RequestCondition
  simp only [hx, if_false]
  have hh := high.toNat_lt
  by_cases hle : effectiveLow cfg low high ≤ high
  · obtain ⟨hc, hmem⟩ := Nrange.insert_spec Nrange.canonical_empty hle
    obtain ⟨hc', hmem'⟩ := @NntpCache.getxrangeOf_spec c' cfg.serverid _ hc
    -- Above the low end the flush leaves what is cached.
    have hr : ∀ n, n ∈ c'.getxrangeOf cfg.serverid ((∅ : Nrange).insert (effectiveLow cfg low high) high) ↔
        (effectiveLow cfg low high ≤ n ∧ n ≤ high) ∧ ¬st.cache.Cached cfg.serverid n := fun n => by
      have hempty := Nrange.not_mem_empty (n := n)
      rw [hmem' n, hmem n, hstay n]
      constructor
      · rintro ⟨hn | hn, hnot⟩
        · exact absurd hn hempty
        · exact ⟨hn, fun hc => hnot ⟨hc, fun hlt => absurd hn.1 (not_le.mpr hlt)⟩⟩
      · exact fun hn => ⟨Or.inr hn.1, fun hc => hn.2 hc.1⟩
    by_cases hw : Wraps cfg high
    · have hraised := @raisedLow_of_wraps _ low _ hw
      rw [effectiveLow_of_wraps hw] at hr ⊢
      have hall : ∀ n : UInt64, n ≤ high := fun n => hw.2 ▸ Nrange.le_varmax
      constructor
      · refine fun hok => Or.inr (Or.inl ⟨hw, fun n hn => ?_⟩)
        by_contra hnot
        have := hok.not_below n ((hr n).mpr ⟨⟨hn, hall n⟩, hnot⟩)
        have := n.toNat_lt
        omega
      · intro hcond
        have hcond : ∀ n, low ≤ n → st.cache.Cached cfg.serverid n := by
          rcases hcond with h | ⟨-, h⟩ | ⟨h, -⟩
          · omega
          · exact h
          · exact absurd hw h
        rw [effectiveLow_of_wraps hw] at hc'
        refine requestOk_of_mem hc' fun n => ⟨fun hn => ?_, fun hn => ?_⟩
        · exact absurd (hcond n ((hr n).mp hn).1.1) ((hr n).mp hn).2
        · have := hn.1.1
          have := n.toNat_lt
          omega
    · have hraised := @toNat_effectiveLow _ low _ hw
      refine ⟨fun _ => Or.inl (hraised ▸ UInt64.le_iff_toNat_le.mp hle), fun _ => ?_⟩
      refine requestOk_of_mem hc' fun n => ?_
      rw [hr n, hcached, ← hraised, ← UInt64.le_iff_toNat_le]
  · have hlt := not_le.mp hle
    have hw : ¬Wraps cfg high := fun hw => hle (hw.2 ▸ Nrange.le_varmax)
    have hraised := @toNat_effectiveLow _ low _ hw
    have hraised' : ¬raisedLow cfg low high ≤ high.toNat := fun h =>
      hle (UInt64.le_iff_toNat_le.mpr (hraised ▸ h))
    have hcond : (raisedLow cfg low high ≤ high.toNat ∨ (Wraps cfg high ∧ ∀ n, low ≤ n → st.cache.Cached cfg.serverid n) ∨
        (¬Wraps cfg high ∧ st.cache.Cached cfg.serverid high ∧
          ((st.cache.servinfo cfg.serverid).low = 0 ∨ (st.cache.servinfo cfg.serverid).high = Nrange.varmax))) ↔
        c'.Cached cfg.serverid high := by
      rw [hstay high]
      simp only [hraised', hw, hlt, false_and, not_false_eq_true, true_and, false_or, forall_const]
    rw [hcond, NntpCache.getxrangeOf_eq, foldl_malformed hlt]
    split
    · next hcach =>
      refine ⟨fun _ => hcach, fun _ => requestOk_of_mem Nrange.canonical_empty fun n => ?_⟩
      refine ⟨fun hn => absurd hn Nrange.not_mem_empty, fun hn => ?_⟩
      exact absurd (hn.1.1.trans (UInt64.le_iff_toNat_le.mp hn.1.2)) hraised'
    · next hcach => exact ⟨fun hok => absurd hok (not_requestOk_insert mem_insert_empty hlt), fun h => absurd h hcach⟩

/-! ### The request of an update -/

/-- Only the interval and the cached numbers of the server matter. -/
theorem requestOk_congr {c' : NntpCache} {r : Nrange} (hinfo : c'.servinfo cfg.serverid = c.servinfo cfg.serverid)
    (hfiles : c'.files = c.files) : (RequestOk cfg c' low high r ↔ RequestOk cfg c low high r) ∧
      (RequestCondition cfg c' low high ↔ RequestCondition cfg c low high) := by
  have hcached : ∀ n, c'.Cached cfg.serverid n ↔ c.Cached cfg.serverid n := fun n => by
    unfold NntpCache.Cached
    rw [hfiles]
  have halready : ∀ n, AlreadyCached cfg c' n ↔ AlreadyCached cfg c n := fun n => by
    unfold AlreadyCached
    rw [hinfo, hcached]
  refine ⟨⟨fun h => ?_, fun h => ?_⟩, ?_⟩
  · exact ⟨h.wellFormed, h.not_below, h.not_above, fun n hn => mt (halready n).mpr (h.not_cached n hn),
      fun n hl hh hnot => h.all n hl hh (mt (halready n).mp hnot), h.total⟩
  · exact ⟨h.wellFormed, h.not_below, h.not_above, fun n hn => mt (halready n).mp (h.not_cached n hn),
      fun n hl hh hnot => h.all n hl hh (mt (halready n).mpr hnot), h.total⟩
  · unfold RequestCondition
    simp only [hinfo, hcached]

theorem intervalUpdate_ok_iff (hin : Inside st.cache cfg.serverid) :
    RequestOk cfg st.cache low high (intervalUpdate cfg low high st now).2 ↔ RequestCondition cfg st.cache low high := by
  unfold intervalUpdate
  dsimp only
  by_cases hx0 : cfg.fullxover = 0
  · have hint := @flushBelow_interval cfg (effectiveLow cfg low high) st now
    by_cases hsh : (st.cache.servinfo cfg.serverid).high = 0
    · exact interval_first hx0 hsh hint.1
    · exact interval_next hx0 hsh hint.1 hint.2
  · exact interval_fullxover hx0 hin

theorem headerUpdate_eq {answers : Answers} (hx : cfg.fullxover = 0 ∨ cfg.fullxover = 1) :
    headerUpdate cfg answers low high st now =
      .ok (intervalUpdate cfg low high { st with cache := st.cache.getserverinfo cfg.serverid } now) := by
  have hne2 : cfg.fullxover ≠ 2 := by
    rcases hx with h | h <;> rw [h] <;> decide
  simp only [headerUpdate, hne2, decide_false, Bool.and_false, Bool.false_eq_true, if_false]

end

/-- With `fullxover` 0 or 1, an update requests what it is meant to exactly on the condition. -/
theorem request_ok_iff (cfg : UpdateConfig) (answers : Answers) (low high : UInt64) (st : Session) (now : Int64)
    (hx : cfg.fullxover = 0 ∨ cfg.fullxover = 1) (hin : Inside st.cache cfg.serverid) :
    ∃ st' r, headerUpdate cfg answers low high st now = .ok (st', r) ∧
      (RequestOk cfg st.cache low high r ↔ RequestCondition cfg st.cache low high) := by
  have hinfo := @NntpCache.servinfo_getserverinfo st.cache cfg.serverid cfg.serverid
  have hin' : Inside (st.cache.getserverinfo cfg.serverid) cfg.serverid := fun sa hsa hs => hinfo ▸ hin sa hsa hs
  obtain ⟨hok, hcond⟩ := @requestOk_congr _ low high _ _
    ((intervalUpdate cfg low high { st with cache := st.cache.getserverinfo cfg.serverid } now).2) hinfo rfl
  refine ⟨_, _, headerUpdate_eq hx, ?_⟩
  exact hok.symm.trans ((@intervalUpdate_ok_iff _ _ _ ({ st with cache := st.cache.getserverinfo cfg.serverid })
    _ hin').trans hcond)

/-- A session whose cache has article 3 of server 1. -/
def sampleSession : Session := { cache := NntpCache.run [.additem (NntpCache.sampleHeader 1 3) 0] }

theorem sampleSession_inside : Inside sampleSession.cache 1 := by
  unfold Inside
  decide

theorem request_ok_sample : ∃ st' r,
    headerUpdate { serverid := 1, fullxover := 0, maxheaders := 2 } ⟨[], ⟨[], []⟩, fun _ _ => ⟨[], []⟩⟩ 3 5 sampleSession 0 =
      .ok (st', r) ∧
    (RequestOk { serverid := 1, fullxover := 0, maxheaders := 2 } sampleSession.cache 3 5 r ↔
      RequestCondition { serverid := 1, fullxover := 0, maxheaders := 2 } sampleSession.cache 3 5) :=
  request_ok_iff _ _ 3 5 sampleSession 0 (Or.inl rfl) sampleSession_inside

/-- With article 3 cached and `maxheaders` 2, a server that has 10 to 20 is asked for 4 to 20. -/
theorem request_exceeds_maxheaders :
    ¬∀ (cfg : UpdateConfig) (answers : Answers) (low high : UInt64) (st : Session) (now : Int64),
    (cfg.fullxover = 0 ∨ cfg.fullxover = 1) → Inside st.cache cfg.serverid →
      ∃ st' r, headerUpdate cfg answers low high st now = .ok (st', r) ∧ RequestOk cfg st.cache low high r := by
  intro h
  obtain ⟨st', r, hupdate, hok⟩ := h { serverid := 1, fullxover := 0, maxheaders := 2 }
    ⟨[], ⟨[], []⟩, fun _ _ => ⟨[], []⟩⟩ 10 20 sampleSession 0 (Or.inl rfl) sampleSession_inside
  rw [headerUpdate_eq (Or.inl rfl), Except.ok.injEq, Prod.ext_iff] at hupdate
  have hr : _ = r := hupdate.2
  subst hr
  have hmem : ∃ e ∈ SortedMap.entries (Nrange.rlist (intervalUpdate { serverid := 1, fullxover := 0, maxheaders := 2 } 10 20
      { sampleSession with cache := sampleSession.cache.getserverinfo 1 } 0).2), e.2 ≤ 4 ∧ 4 ≤ e.1 := by decide
  exact absurd (hok.not_below 4 hmem) (by decide)

end Nget

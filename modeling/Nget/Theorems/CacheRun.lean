import Nget.Theorems.Flush

/-! Runs of the header cache from the empty one. Whatever the article numbers, the invariant holds after
    each operation. Where every number lies strictly between 0 and `ULONG_MAX`, each server's articles lie
    in its interval, and so `flush` takes out exactly those in the flushed range. `flushlow` keeps its
    contract exactly when the articles that it should take out are in reach of the interval's arithmetic. -/

namespace Nget
namespace NntpCache
variable {c : NntpCache} {serverid newlow n : UInt64} {range : Nrange} {now : Int64} {midinfo : MetaMidInfo}

/-- The operations on a cache, on a server's `c_nntp_server_info` as `getserverinfo` gives it. The range of
    `flush` is one that the operations of `c_nrange` make, and `flushlow` asserts its `newlow > 0`. -/
inductive CacheOp where
  | additem (h : NntpHeader) (now : Int64)
  | flush (serverid : UInt64) (flushrange : {r : Nrange // r.Canonical}) (midinfo : MetaMidInfo) (now : Int64)
  | flushlow (serverid newlow : UInt64) (newlow_pos : 0 < newlow) (midinfo : MetaMidInfo) (now : Int64)

def apply (c : NntpCache) : CacheOp → NntpCache
  | .additem h now => (c.additem h now).1
  | .flush serverid flushrange midinfo now => ((c.getserverinfo serverid).flush serverid flushrange midinfo now).1
  | .flushlow serverid newlow _ midinfo now => ((c.getserverinfo serverid).flushlow serverid newlow midinfo now).1

/-- A run from the empty cache. -/
def run (ops : List CacheOp) : NntpCache := ops.foldl apply ∅

/-- An article that an operation adds for the server has a number strictly between 0 and `ULONG_MAX`. -/
def CacheOp.Inside (serverid : UInt64) : CacheOp → Prop
  | .additem h _ => h.serverid = serverid → 0 < h.articlenum ∧ h.articlenum < Nrange.varmax
  | _ => True

/-! ### The invariant -/

theorem servinfo_getserverinfo {s : UInt64} : (c.getserverinfo serverid).servinfo s = c.servinfo s := by
  unfold servinfo getserverinfo SortedMap.insertNew
  dsimp only
  cases hfind : c.serverInfo.find? serverid with
  | some e => rfl
  | none =>
    dsimp only
    rw [SortedMap.find?_assign]
    split
    · next hs => rw [hs, hfind]; rfl
    · rfl

theorem Inv.getserverinfo (hc : c.Inv) : (c.getserverinfo serverid).Inv := by
  refine ⟨hc.files, hc.sorted, hc.totalnum, fun e he => ?_, fun s => ?_, fun sa hsa => ?_⟩
  · unfold NntpCache.getserverinfo SortedMap.insertNew at he
    dsimp only at he
    split at he
    · exact hc.serverid e he
    · rcases SortedMap.mem_assign.mp he with rfl | ⟨he, -⟩
      · rfl
      · exact hc.serverid e he
  · rw [servinfo_getserverinfo]
    exact hc.num s
  · rw [servinfo_getserverinfo]
    exact hc.high sa hsa

theorem Inv.setLow (hc : c.Inv) : (c.setServinfo serverid { c.servinfo serverid with low := newlow }).Inv := by
  refine ⟨hc.files, hc.sorted, hc.totalnum, serverid_setServinfo hc.serverid (servinfo_serverid hc.serverid),
    fun s => ?_, fun sa hsa => ?_⟩
  · rw [servinfo_setServinfo]
    split
    · next hs => exact hs ▸ hc.num s
    · exact hc.num s
  · rw [servinfo_setServinfo]
    split
    · next hs => exact hs ▸ hc.high sa hsa
    · exact hc.high sa hsa

theorem Inv.flushlow (hc : c.Inv) : (c.flushlow serverid newlow midinfo now).1.Inv :=
  (@Inv.flush _ serverid ((∅ : Nrange).insert 0 (newlow - 1)) now _ hc).setLow

theorem Inv.apply (hc : c.Inv) (op : CacheOp) : (c.apply op).Inv := by
  cases op with
  | additem h now => exact hc.additem
  | flush serverid flushrange midinfo now => exact hc.getserverinfo.flush
  | flushlow serverid newlow _ midinfo now => exact hc.getserverinfo.flushlow

theorem run_inv (ops : List CacheOp) : (run ops).Inv :=
  List.foldlRecOn ops apply inv_empty fun _ hc op _ => hc.apply op

/-! ### The restricted range -/

theorem le_pred_iff {low : UInt64} : n ≤ low - 1 ↔ low = 0 ∨ n < low := by grind

theorem succ_le_iff {high : UInt64} : high + 1 ≤ n ↔ high = Nrange.varmax ∨ high < n := by
  unfold Nrange.varmax
  grind

/-- A number of the server's interval stays in the restricted range when the interval's ends do not wrap. -/
theorem check_restrict (hr : range.Canonical) (hlow : 0 < (c.servinfo serverid).low)
    (hhigh : (c.servinfo serverid).high < Nrange.varmax) (hn : (c.servinfo serverid).low ≤ n)
    (hn' : n ≤ (c.servinfo serverid).high) : (c.restrict serverid range).check n = range.check n := by
  have hr1 := (Nrange.remove_spec (l := 0) (h := (c.servinfo serverid).low - 1) hr (by grind)).1
  have hr2 := (Nrange.remove_spec (l := (c.servinfo serverid).high + 1) (h := Nrange.varmax) hr1 Nrange.le_varmax).1
  unfold restrict
  rw [Bool.eq_iff_iff, Nrange.check_iff hr2, Nrange.check_iff hr]
  constructor
  · exact fun h => Nrange.mem_of_mem_remove hr (by grind) (Nrange.mem_of_mem_remove hr1 Nrange.le_varmax h)
  · refine fun h => Nrange.mem_remove_of_mem hr1 Nrange.le_varmax (Nrange.mem_remove_of_mem hr (by grind) h ?_) ?_
    · rw [le_pred_iff]
      grind
    · rw [succ_le_iff]
      grind

/-! ### Runs whose article numbers lie strictly between 0 and `ULONG_MAX` -/

/-- No end of the server's interval wraps, and no article of the server lies below the interval. -/
structure Bounded (c : NntpCache) (serverid : UInt64) : Prop where
  low_pos : 0 < (c.servinfo serverid).low
  high_lt : (c.servinfo serverid).high < Nrange.varmax
  low : ∀ sa ∈ articles c.files, sa.serverid = serverid → (c.servinfo serverid).low ≤ sa.articlenum

theorem bounded_empty : Bounded ∅ serverid where
  low_pos := show (0 : UInt64) < 0xFFFFFFFFFFFFFFFF by decide
  high_lt := show (0 : UInt64) < Nrange.varmax by decide
  low := by simp [EmptyCollection.emptyCollection, articles]

theorem Bounded.additem {h : NntpHeader} (hb : c.Bounded serverid) (hc : c.Inv)
    (hin : h.serverid = serverid → 0 < h.articlenum ∧ h.articlenum < Nrange.varmax) :
    (c.additem h now).1.Bounded serverid := by
  obtain ⟨newpart, ha, -⟩ := @additem_added _ h now hc.sorted
  have hmem : ∀ sa, sa ∈ articles (c.additem h now).1.files ↔ sa = .ofHeader h ∨ sa ∈ articles c.files := fun sa =>
    (ha.articles hc.files).perm.mem_iff.trans List.mem_cons
  by_cases hs : h.serverid = serverid
  · obtain ⟨hpos, hmax⟩ := hin hs
    subst hs
    have hinfo : (c.additem h now).1.servinfo h.serverid = (c.servinfo h.serverid).addArticle h.articlenum := by
      rw [servinfo_additem, if_pos rfl]
    refine ⟨?_, ?_, fun sa hsa hsid => ?_⟩ <;> rw [hinfo]
    · have := hb.low_pos
      unfold NntpServerInfo.addArticle
      dsimp only
      split
      · exact hpos
      · exact this
    · have := hb.high_lt
      unfold NntpServerInfo.addArticle
      dsimp only
      split
      · exact hmax
      · exact this
    · rw [addArticle_low_le]
      rcases (hmem sa).mp hsa with rfl | hsa
      · exact Or.inr le_rfl
      · exact Or.inl (hb.low sa hsa hsid)
  · have hinfo : (c.additem h now).1.servinfo serverid = c.servinfo serverid := by
      rw [servinfo_additem, if_neg fun heq => hs heq.symm]
    refine ⟨hinfo ▸ hb.low_pos, hinfo ▸ hb.high_lt, fun sa hsa hsid => ?_⟩
    rcases (hmem sa).mp hsa with rfl | hsa
    · exact absurd hsid hs
    · exact hinfo ▸ hb.low sa hsa hsid

/-- What leaves the server's interval and takes no article in keeps the bounds. -/
theorem Bounded.of_eq {c' : NntpCache} (hb : c.Bounded serverid)
    (hlow : (c'.servinfo serverid).low = (c.servinfo serverid).low)
    (hhigh : (c'.servinfo serverid).high = (c.servinfo serverid).high)
    (hsub : ∀ sa ∈ articles c'.files, sa ∈ articles c.files) : c'.Bounded serverid :=
  ⟨hlow ▸ hb.low_pos, hhigh ▸ hb.high_lt, fun sa hsa hs => hlow ▸ hb.low sa (hsub sa hsa) hs⟩

theorem Bounded.getserverinfo {s : UInt64} (hb : c.Bounded serverid) : (c.getserverinfo s).Bounded serverid :=
  hb.of_eq (by rw [servinfo_getserverinfo]) (by rw [servinfo_getserverinfo]) fun _ hsa => hsa

theorem interval_flush {s : UInt64} :
    ((c.flush serverid range midinfo now).1.servinfo s).low = (c.servinfo s).low ∧
      ((c.flush serverid range midinfo now).1.servinfo s).high = (c.servinfo s).high := by
  rw [servinfo_flush]
  split <;> exact ⟨rfl, rfl⟩

theorem Bounded.flush {s : UInt64} (hb : c.Bounded serverid) : (c.flush s range midinfo now).1.Bounded serverid := by
  refine hb.of_eq interval_flush.1 interval_flush.2 fun sa hsa => ?_
  rw [flush_articles] at hsa
  exact (List.mem_filter.mp hsa).1

/-- Within its bounds, `flush` takes out exactly the server's articles in the flushed range. -/
theorem flushes_restrict (hb : c.Bounded serverid) (hc : c.Inv) (hr : range.Canonical) :
    ∀ sa ∈ articles c.files, flushes serverid (c.restrict serverid range) sa = flushes serverid range sa := by
  intro sa hsa
  unfold flushes
  by_cases hs : sa.serverid = serverid
  · rw [check_restrict hr hb.low_pos hb.high_lt (hb.low sa hsa hs) (hs ▸ hc.high sa hsa)]
  · simp [hs]

theorem flush_exact (hb : c.Bounded serverid) (hc : c.Inv) (hr : range.Canonical) :
    (c.flush serverid range midinfo now).1.files = withoutFiles (flushes serverid range) c.files ∧
      (c.flush serverid range midinfo now).2.1 = UInt64.ofNat ((articles c.files).countP (flushes serverid range)) := by
  have hg := flushes_restrict hb hc hr
  obtain ⟨hfiles, hcount, -⟩ := @flush_spec _ serverid range now midinfo hc.files
  rw [hfiles, hcount, withoutFiles_congr hg, List.countP_congr fun sa hsa => by rw [hg sa hsa]]
  exact ⟨rfl, rfl⟩

/-! ### `flushlow` -/

/-- The range `[0, newlow - 1]` of `flushlow` is one range, and cutting it to the server's interval is exact:
    an end of the interval that wraps takes out everything. -/
theorem check_restrict_low (hpos : 0 < newlow) :
    (c.restrict serverid ((∅ : Nrange).insert 0 (newlow - 1))).check n = true ↔
      n < newlow ∧ (0 < (c.servinfo serverid).low ∧ (c.servinfo serverid).low ≤ n) ∧
        (c.servinfo serverid).high < Nrange.varmax ∧ n ≤ (c.servinfo serverid).high := by
  generalize hr : (∅ : Nrange).insert 0 (newlow - 1) = r
  obtain ⟨hc, hmem⟩ := Nrange.insert_spec Nrange.canonical_empty (l := 0) (h := newlow - 1) (by grind)
  rw [hr] at hc hmem
  have hone : ∀ e ∈ r.rlist, e = (newlow - 1, 0) := by
    subst hr
    intro e he
    rcases SortedMap.mem_assign.mp he with rfl | ⟨he, -⟩
    · rfl
    · exact absurd he SortedMap.not_mem_empty
  generalize hlow : (c.servinfo serverid).low = low
  generalize hhigh : (c.servinfo serverid).high = high
  obtain ⟨hc1, -⟩ := Nrange.remove_spec (l := 0) (h := low - 1) hc (by grind)
  have hmem1 : n ∈ r.remove 0 (low - 1) ↔ n ∈ r ∧ ¬(0 ≤ n ∧ n ≤ low - 1) :=
    Nrange.mem_remove_iff hc (by grind) (Nrange.visited_of_single hone)
  -- What is left of `[0, newlow - 1]` above `low - 1` is again one range.
  have hone1 : ∀ e ∈ (r.remove 0 (low - 1)).rlist, e = (newlow - 1, low - 1 + 1) := fun e he => by
    obtain ⟨j, hj, ⟨-, hcut⟩ | ⟨hnot, -⟩⟩ := (Nrange.mem_remove_rlist hc (by grind)).mp he
    · rw [hone j hj] at hcut
      rcases hcut with ⟨hout, -⟩ | ⟨-, ⟨hlt, -⟩ | ⟨-, rfl⟩⟩
      · exact absurd hout (by grind)
      · exact absurd hlt (by grind)
      · rfl
    · refine absurd (Nrange.visited_of_single hone j hj (by grind) ?_) hnot
      rw [hone j hj]
      grind
  obtain ⟨hc2, -⟩ := Nrange.remove_spec (l := high + 1) (h := Nrange.varmax) hc1 Nrange.le_varmax
  have hmem2 := Nrange.mem_remove_iff (n := n) hc1 (Nrange.le_varmax (n := high + 1)) (Nrange.visited_of_single hone1)
  unfold restrict
  rw [hlow, hhigh, Nrange.check_iff hc2, hmem2, hmem1, hmem n, le_pred_iff, succ_le_iff]
  have := Nrange.not_mem_empty (n := n)
  have := Nrange.le_varmax (n := n)
  have := Nrange.le_varmax (n := high)
  grind

/-- What `flushlow` is to do: the server's articles below `newlow` go, every other article of the cache stays,
    `newlow` is the interval's low end, and the server's articles lie in the interval. -/
structure FlushlowContract (c c' : NntpCache) (serverid newlow : UInt64) : Prop where
  gone : ∀ sa ∈ articles c'.files, sa.serverid = serverid → newlow ≤ sa.articlenum
  others : (articles c'.files).filter (fun sa => !(sa.serverid = serverid && sa.articlenum < newlow)) =
    (articles c.files).filter fun sa => !(sa.serverid = serverid && sa.articlenum < newlow)
  low : (c'.servinfo serverid).low = newlow
  inside : ∀ sa ∈ articles c'.files, sa.serverid = serverid →
    (c'.servinfo serverid).low ≤ sa.articlenum ∧ sa.articlenum ≤ (c'.servinfo serverid).high

/-- The articles that `flushlow` should take out are in reach of the arithmetic on the server's interval. -/
def FlushlowReaches (c : NntpCache) (serverid newlow : UInt64) : Prop :=
  ∀ sa ∈ articles c.files, sa.serverid = serverid → sa.articlenum < newlow →
    (0 < (c.servinfo serverid).low ∧ (c.servinfo serverid).low ≤ sa.articlenum) ∧
      (c.servinfo serverid).high < Nrange.varmax

theorem servinfo_flushlow {s : UInt64} : (c.flushlow serverid newlow midinfo now).1.servinfo s =
    if s = serverid then { (c.flush serverid ((∅ : Nrange).insert 0 (newlow - 1)) midinfo now).1.servinfo s with low := newlow }
    else c.servinfo s := by
  unfold flushlow
  dsimp only
  rw [servinfo_setServinfo]
  split
  · next hs => rw [hs]
  · next hs => rw [servinfo_flush, if_neg hs]

theorem articles_flushlow : articles (c.flushlow serverid newlow midinfo now).1.files = (articles c.files).filter
    fun sa => !flushes serverid (c.restrict serverid ((∅ : Nrange).insert 0 (newlow - 1))) sa :=
  flush_articles

theorem high_flushlow {s : UInt64} :
    ((c.flushlow serverid newlow midinfo now).1.servinfo s).high = (c.servinfo s).high := by
  rw [servinfo_flushlow]
  split
  · exact interval_flush.2
  · rfl

theorem flushes_low (hpos : 0 < newlow) {sa : NntpServerArticle}
    (hhigh : sa.serverid = serverid → sa.articlenum ≤ (c.servinfo serverid).high) :
    flushes serverid (c.restrict serverid ((∅ : Nrange).insert 0 (newlow - 1))) sa = true ↔
      (sa.serverid = serverid ∧ sa.articlenum < newlow) ∧
        (0 < (c.servinfo serverid).low ∧ (c.servinfo serverid).low ≤ sa.articlenum) ∧
          (c.servinfo serverid).high < Nrange.varmax := by
  unfold flushes
  rw [Bool.and_eq_true, check_restrict_low hpos, decide_eq_true_eq]
  constructor
  · rintro ⟨hs, hlt, hlow, hmax, -⟩
    exact ⟨⟨hs, hlt⟩, hlow, hmax⟩
  · rintro ⟨⟨hs, hlt⟩, hlow, hmax⟩
    exact ⟨hs, hlt, hlow, hmax, hhigh hs⟩

theorem flushlow_contract_iff (hc : c.Inv) (hpos : 0 < newlow) :
    FlushlowContract c (c.flushlow serverid newlow midinfo now).1 serverid newlow ↔ FlushlowReaches c serverid newlow := by
  have hin : ∀ sa ∈ articles c.files, sa.serverid = serverid → sa.articlenum ≤ (c.servinfo serverid).high :=
    fun sa hsa hs => hs ▸ hc.high sa hsa
  have hmem : ∀ sa, sa ∈ articles (c.flushlow serverid newlow midinfo now).1.files ↔ sa ∈ articles c.files ∧
      ¬flushes serverid (c.restrict serverid ((∅ : Nrange).insert 0 (newlow - 1))) sa = true := fun sa => by
    rw [articles_flushlow, List.mem_filter, Bool.not_eq_true', Bool.not_eq_true]
  have hlow : ((c.flushlow serverid newlow midinfo now).1.servinfo serverid).low = newlow := by
    rw [servinfo_flushlow, if_pos rfl]
  constructor
  · intro h sa hsa hs hlt
    by_contra hreach
    refine absurd (h.gone sa ((hmem sa).mpr ⟨hsa, fun hflush => hreach ?_⟩) hs) (not_le.mpr hlt)
    exact ((flushes_low hpos (hin sa hsa)).mp hflush).2
  · intro h
    have hgone : ∀ sa ∈ articles (c.flushlow serverid newlow midinfo now).1.files, sa.serverid = serverid →
        newlow ≤ sa.articlenum := fun sa hsa hs => by
      obtain ⟨hsa, hstay⟩ := (hmem sa).mp hsa
      by_contra hlt
      exact hstay ((flushes_low hpos (hin sa hsa)).mpr ⟨⟨hs, not_le.mp hlt⟩, h sa hsa hs (not_le.mp hlt)⟩)
    refine ⟨hgone, ?_, hlow, fun sa hsa hs => ⟨hlow.le.trans (hgone sa hsa hs), ?_⟩⟩
    · rw [articles_flushlow, List.filter_filter]
      refine List.filter_congr fun sa hsa => ?_
      rw [Bool.and_eq_left_iff_imp]
      intro hother
      rw [Bool.not_eq_true', ← Bool.not_eq_true]
      intro hflush
      have := ((flushes_low hpos (hin sa hsa)).mp hflush).1
      simp [this] at hother
    · rw [high_flushlow]
      exact hin sa ((hmem sa).mp hsa).1 hs

theorem Bounded.reaches (hb : c.Bounded serverid) : FlushlowReaches c serverid newlow := fun sa hsa hs _ =>
  ⟨⟨hb.low_pos, hb.low sa hsa hs⟩, hb.high_lt⟩

theorem Bounded.flushlow {s : UInt64} (hb : c.Bounded serverid) (hc : c.Inv) (hpos : 0 < newlow) :
    (c.flushlow s newlow midinfo now).1.Bounded serverid := by
  have hsub : ∀ sa ∈ articles (c.flushlow s newlow midinfo now).1.files, sa ∈ articles c.files := fun sa hsa => by
    rw [articles_flushlow] at hsa
    exact (List.mem_filter.mp hsa).1
  by_cases hs : serverid = s
  · subst hs
    have hcontract := (@flushlow_contract_iff _ _ _ now midinfo hc hpos).mpr hb.reaches
    refine ⟨hpos.trans_eq hcontract.low.symm, ?_, fun sa hsa hsid => (hcontract.inside sa hsa hsid).1⟩
    rw [high_flushlow]
    exact hb.high_lt
  · exact hb.of_eq (by rw [servinfo_flushlow, if_neg hs]) high_flushlow hsub

theorem Bounded.apply (hb : c.Bounded serverid) (hc : c.Inv) {op : CacheOp} (hop : op.Inside serverid) :
    (c.apply op).Bounded serverid := by
  cases op with
  | additem h now => exact hb.additem hc hop
  | flush serverid flushrange midinfo now => exact hb.getserverinfo.flush
  | flushlow serverid newlow newlow_pos midinfo now => exact hb.getserverinfo.flushlow hc.getserverinfo newlow_pos

theorem run_bounded {ops : List CacheOp} (hops : ∀ op ∈ ops, op.Inside serverid) : (run ops).Bounded serverid := by
  have := List.foldlRecOn (motive := fun c => c.Inv ∧ c.Bounded serverid) ops apply ⟨inv_empty, bounded_empty⟩
    fun _ hc op hop => ⟨hc.1.apply op, hc.2.apply hc.1 (hops op hop)⟩
  exact this.2

/-! ### The contracts over runs -/

theorem countPartnum_iff {partnum req : Int32} (hreq : 1 ≤ req) :
    countPartnum partnum req = true ↔ 1 ≤ partnum.toInt ∧ partnum.toInt ≤ req.toInt := by
  have hone : (1 : Int32).toInt = 1 := rfl
  have hzero : (0 : Int32).toInt = 0 := rfl
  rw [Int32.le_iff_toInt_le, hone] at hreq
  unfold countPartnum
  rw [if_pos (Int32.lt_iff_toInt_lt.mpr (by omega)), Bool.and_eq_true, decide_eq_true_eq, decide_eq_true_eq,
    Int32.lt_iff_toInt_lt, Int32.le_iff_toInt_le, hzero]
  omega

/-- A file has all its parts exactly when `have` is its `req`: the counted parts have different numbers in
    `1..req`, so there are `req` of them when every number occurs. -/
theorem haveNum_eq_req_iff {f : NntpFile} (hf : f.WellFormed) (hreq : 1 ≤ f.req) :
    f.haveNum = f.req.toInt ↔ ∀ k : Int32, 1 ≤ k → k ≤ f.req → ∃ p ∈ f.parts, p.partnum = k := by
  let nums : List Int := (f.parts.filter fun p => countPartnum p.partnum f.req).map (·.partnum.toInt)
  have hmem : ∀ x, x ∈ nums ↔ ∃ p ∈ f.parts, p.partnum.toInt = x ∧ 1 ≤ x ∧ x ≤ f.req.toInt := fun x => by
    simp only [nums, List.mem_map, List.mem_filter, countPartnum_iff hreq]
    constructor
    · rintro ⟨p, ⟨hp, hin⟩, rfl⟩
      exact ⟨p, hp, rfl, hin⟩
    · rintro ⟨p, hp, rfl, hin⟩
      exact ⟨p, ⟨hp, hin⟩, rfl⟩
  have hnodup : nums.Nodup := by
    refine List.pairwise_map.mpr ((hf.increasing.filter _).imp fun hab heq => ?_)
    exact hab.ne (Int32.toInt_inj.mp heq)
  have hcard : nums.toFinset.card = NntpFile.countParts f.req f.parts := by
    rw [List.toFinset_card_of_nodup hnodup, List.length_map, NntpFile.countParts, List.countP_eq_length_filter]
  have hsub : nums.toFinset ⊆ Finset.Icc 1 f.req.toInt := fun x hx => by
    obtain ⟨-, -, -, hin⟩ := (hmem x).mp (List.mem_toFinset.mp hx)
    exact Finset.mem_Icc.mpr hin
  have hicc : (Finset.Icc 1 f.req.toInt).card = f.req.toInt.toNat := by simp
  have hone : (1 : Int32).toInt = 1 := rfl
  have hpos : 1 ≤ f.req.toInt := by rwa [Int32.le_iff_toInt_le, hone] at hreq
  rw [hf.haveNum, ← hcard]
  constructor
  · intro heq k hk hkreq
    have hall := Finset.eq_of_subset_of_card_le hsub (by rw [hicc]; omega)
    rw [Int32.le_iff_toInt_le, hone] at hk
    rw [Int32.le_iff_toInt_le] at hkreq
    have hkmem : k.toInt ∈ nums.toFinset := hall ▸ Finset.mem_Icc.mpr ⟨hk, hkreq⟩
    obtain ⟨p, hp, hpk, -⟩ := (hmem _).mp (List.mem_toFinset.mp hkmem)
    exact ⟨p, hp, Int32.toInt_inj.mp hpk⟩
  · intro hall
    have hsup : Finset.Icc 1 f.req.toInt ⊆ nums.toFinset := fun x hx => by
      obtain ⟨hx1, hx2⟩ := Finset.mem_Icc.mp hx
      have hlt := f.req.toInt_lt
      have hxk : (Int32.ofInt x).toInt = x := Int32.toInt_ofInt_of_le (by omega) (by omega)
      obtain ⟨p, hp, hpk⟩ := hall (Int32.ofInt x) (by rw [Int32.le_iff_toInt_le, hone, hxk]; exact hx1)
        (by rw [Int32.le_iff_toInt_le, hxk]; exact hx2)
      exact List.mem_toFinset.mpr ((hmem x).mpr ⟨p, hp, by rw [hpk, hxk], hx1, hx2⟩)
    rw [Finset.Subset.antisymm hsub hsup, hicc]
    omega

theorem flushes_iff (hr : range.Canonical) {sa : NntpServerArticle} :
    flushes serverid range sa = true ↔ sa.serverid = serverid ∧ sa.articlenum ∈ range := by
  unfold flushes
  rw [Bool.and_eq_true, decide_eq_true_eq, Nrange.check_iff hr]

/-- After every operation the counters count what the cache holds, and `flush` takes out exactly the
    server's articles in its range, with the parts and files that have no others. -/
theorem run_representation {ops : List CacheOp} (hops : ∀ op ∈ ops, ∀ s, op.Inside s) :
    (run ops).totalnum = UInt64.ofNat (numParts (run ops).files) ∧
      (∀ f ∈ (run ops).files, f.WellFormed ∧
        (1 ≤ f.req → (f.haveNum = f.req.toInt ↔ ∀ k : Int32, 1 ≤ k → k ≤ f.req → ∃ p ∈ f.parts, p.partnum = k))) ∧
      (∀ s, ((run ops).servinfo s).num = UInt64.ofNat (countServer s (run ops).files) ∧
        ∀ sa ∈ articles (run ops).files, sa.serverid = s →
          ((run ops).servinfo s).low ≤ sa.articlenum ∧ sa.articlenum ≤ ((run ops).servinfo s).high) ∧
      ∀ s (range : Nrange) midinfo now, range.Canonical →
        let r := ((run ops).getserverinfo s).flush s range midinfo now
        r.2.1 = UInt64.ofNat ((articles (run ops).files).countP (flushes s range)) ∧
          r.1.files = withoutFiles (flushes s range) (run ops).files ∧
          articles r.1.files = (articles (run ops).files).filter (fun sa => !flushes s range sa) ∧
          ∀ sa, flushes s range sa = true ↔ sa.serverid = s ∧ sa.articlenum ∈ range := by
  have hc := run_inv ops
  have hb := fun s => @run_bounded s _ fun op hop => hops op hop s
  refine ⟨hc.totalnum, fun f hf => ⟨hc.files f hf, haveNum_eq_req_iff (hc.files f hf)⟩, fun s => ⟨hc.num s, ?_⟩, ?_⟩
  · rintro sa hsa rfl
    exact ⟨(hb _).low sa hsa rfl, hc.high sa hsa⟩
  · intro s range midinfo now hr
    obtain ⟨hfiles, hcount⟩ := @flush_exact _ _ _ now midinfo ((hb s).getserverinfo (s := s))
      hc.getserverinfo hr
    exact ⟨hcount, hfiles, (congrArg articles hfiles).trans (articles_withoutFiles _), fun sa => flushes_iff hr⟩

/-- An overview line of one article. -/
def sampleHeader (serverid articlenum : UInt64) : NntpHeader :=
  { (default : NntpHeader) with serverid, articlenum, messageid := ['m'], partnum := -1, req := -1 }

/-- The range of one number. -/
def sampleRange (n : UInt64) : {r : Nrange // r.Canonical} :=
  ⟨Nrange.insert ∅ n n, (Nrange.insert_spec Nrange.canonical_empty UInt64.le_rfl).1⟩

/-- One article is on two servers, two are on one of them; `flush` and `flushlow` take out one each. -/
def sampleOps : List CacheOp :=
  [.additem (sampleHeader 1 3) 0, .additem (sampleHeader 2 5) 0, .additem { sampleHeader 1 4 with messageid := ['n'] } 0,
    .additem { sampleHeader 1 9 with messageid := ['o'] } 0, .flush 1 (sampleRange 3) {} 0, .flushlow 1 5 (by decide) {} 0]

theorem run_representation_sample : (run sampleOps).totalnum = 2 ∧
    (∀ f ∈ (run sampleOps).files, f.WellFormed ∧
      (1 ≤ f.req → (f.haveNum = f.req.toInt ↔ ∀ k : Int32, 1 ≤ k → k ≤ f.req → ∃ p ∈ f.parts, p.partnum = k))) ∧
    ((run sampleOps).servinfo 1).num = 1 ∧ ((run sampleOps).servinfo 2).num = 1 ∧
    (∀ s, ∀ sa ∈ articles (run sampleOps).files, sa.serverid = s →
      ((run sampleOps).servinfo s).low ≤ sa.articlenum ∧ sa.articlenum ≤ ((run sampleOps).servinfo s).high) ∧
    (((run sampleOps).getserverinfo 2).flush 2 (sampleRange 5) {} 0).2.1 = 1 ∧
    (articles (((run sampleOps).getserverinfo 2).flush 2 (sampleRange 5) {} 0).1.files).map (·.articlenum) = [9] := by
  have hin : ∀ op ∈ sampleOps, ∀ s, op.Inside s := by
    intro op hop s
    simp only [sampleOps, List.mem_cons, List.not_mem_nil, or_false] at hop
    rcases hop with rfl | rfl | rfl | rfl | rfl | rfl
    case inr.inr.inr.inr.inl | inr.inr.inr.inr.inr => exact trivial
    all_goals exact fun _ => by decide
  obtain ⟨htotal, hfiles, hservers, hflush⟩ := run_representation hin
  obtain ⟨hcount, -, hleft, -⟩ := hflush 2 (sampleRange 5) {} 0 (sampleRange 5).2
  refine ⟨htotal.trans (by decide), hfiles, (hservers 1).1.trans (by decide), (hservers 2).1.trans (by decide),
    fun s => (hservers s).2, hcount.trans (by decide), ?_⟩
  rw [hleft]
  decide

/-- After any run, `flushlow` keeps its contract exactly when every article that it should take out lies in
    the server's interval, the interval does not start at 0 and does not end at `ULONG_MAX`. -/
theorem run_flushlow_contract_iff (ops : List CacheOp) (serverid newlow : UInt64) (newlow_pos : 0 < newlow)
    (midinfo : MetaMidInfo) (now : Int64) :
    FlushlowContract (run ops) (run (ops ++ [.flushlow serverid newlow newlow_pos midinfo now])) serverid newlow ↔
      FlushlowReaches (run ops) serverid newlow := by
  have hrun : run (ops ++ [.flushlow serverid newlow newlow_pos midinfo now]) =
      (((run ops).getserverinfo serverid).flushlow serverid newlow midinfo now).1 := by
    simp [run, apply]
  have hreach : FlushlowReaches ((run ops).getserverinfo serverid) serverid newlow ↔
    FlushlowReaches (run ops) serverid newlow := by
    unfold FlushlowReaches
    rw [servinfo_getserverinfo]
    rfl
  rw [hrun, ← hreach, ← flushlow_contract_iff (run_inv ops).getserverinfo newlow_pos]
  exact ⟨fun h => ⟨h.gone, h.others, h.low, h.inside⟩, fun h => ⟨h.gone, h.others, h.low, h.inside⟩⟩

theorem run_flushlow_contract_sample :
    FlushlowContract (run [.additem (sampleHeader 1 7) 0])
      (run ([.additem (sampleHeader 1 7) 0] ++ [.flushlow 1 9 (by decide) {} 0])) 1 9 :=
  (run_flushlow_contract_iff [.additem (sampleHeader 1 7) 0] 1 9 (by decide) {} 0).mpr (by unfold FlushlowReaches; decide)

/-- Article 0 makes the interval's low end wrap, and the next `flushlow` takes out nothing. -/
theorem run_flushlow_keeps_article_zero : ¬∀ (ops : List CacheOp) (serverid newlow : UInt64) (newlow_pos : 0 < newlow)
    (midinfo : MetaMidInfo) (now : Int64),
    FlushlowContract (run ops) (run (ops ++ [.flushlow serverid newlow newlow_pos midinfo now])) serverid newlow := by
  intro h
  have hgone := (h [.additem (sampleHeader 1 0) 0, .additem (sampleHeader 1 7) 0] 1 5 (by decide) {} 0).gone
  exact absurd hgone (by decide)

end NntpCache
end Nget

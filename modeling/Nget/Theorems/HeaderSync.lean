import Nget.Theorems.Doxover

/-! Header synchronisation: after every update of a run, the cache holds for the server exactly the articles
    that the server has, where the server changed between two updates only as the mode of the update
    documents, and no update touches the articles of another server. Other servers' headers may come in
    between the updates. -/

namespace Nget
open CString
open Nrange (Canonical)

/-- What the mode documents of the server's change: without `fullxover`, articles go only from below and
    come only from above; with 1, articles go only from below; with 2, anything may change. -/
def Documented (fullxover : Int32) (old new : Finset UInt64) : Prop :=
  (fullxover = 0 ∨ fullxover = 1 → ∀ n ∈ old, n ∉ new → ∀ k ∈ new, n < k) ∧
    (fullxover = 0 → ∀ n ∈ new, n ∉ old → ∀ k ∈ old, k < n)

/-- The session of a run of updates with one server, and the set that the server had at the last one. A run
    starts with an empty cache; whatever else adds to the cache adds another server's header. -/
inductive Synced (decodeTextdate : Text → Int64) (cfg : UpdateConfig) (group : Text) :
    Session → Option (Finset UInt64) → Prop
  | start {st : Session} {name : Text} {saveit : Bool} {fileread : Int32}
      (empty : st.cache = { group := name, saveit, fileread }) : Synced decodeTextdate cfg group st none
  | other {st st' : Session} {E : Option (Finset UInt64)} {h : NntpHeader} {now : Int64}
      (run : Synced decodeTextdate cfg group st E) (server : h.serverid ≠ cfg.serverid)
      (add : st'.cache = (st.cache.additem h now).1) : Synced decodeTextdate cfg group st' E
  | update {st st' : Session} {E : Option (Finset UInt64)} {new : Finset UInt64} {low high : UInt64} {answers : Answers}
      {now : Int64} (run : Synced decodeTextdate cfg group st E) (honest : Honest answers new low high)
      (documented : ∀ old ∈ E, Documented cfg.fullxover old new)
      (ok : nntpDogroup decodeTextdate cfg answers group true now st = .ok st') :
      Synced decodeTextdate cfg group st' (some new)

section
variable {c c' : NntpCache} {serverid n : UInt64} {decodeTextdate : Text → Int64} {group : Text} {now : Int64}
  {cfg : UpdateConfig} {low high : UInt64} {st st' : Session}

/-- The articles of the other servers. -/
def others (c : NntpCache) (serverid : UInt64) : List NntpServerArticle :=
  (NntpCache.articles c.files).filter fun sa => sa.serverid ≠ serverid

/-! ### What `additem` and `flush` do to a server's numbers -/

/-- The server's numbers are `N`, with the invariant of the cache and of the server's interval. -/
structure Holds (c : NntpCache) (serverid : UInt64) (N : UInt64 → Prop) : Prop where
  inv : c.Inv
  bounded : c.Bounded serverid
  cached : ∀ n, c.Cached serverid n ↔ N n

theorem Holds.inside {N : UInt64 → Prop} (hc : Holds c serverid N) : Inside c serverid := fun sa hsa hs =>
  ⟨hc.bounded.low sa hsa hs, hs ▸ hc.inv.high sa hsa⟩

theorem articles_additem {h : NntpHeader} (hc : c.Inv) :
    NntpCache.Inserted h (NntpCache.articles c.files) (NntpCache.articles (c.additem h now).1.files) := by
  obtain ⟨newpart, ha, -⟩ := @NntpCache.additem_added _ h now hc.sorted
  exact ha.articles hc.files

theorem cached_additem {h : NntpHeader} (hc : c.Inv) :
    (c.additem h now).1.Cached serverid n ↔ c.Cached serverid n ∨ h.serverid = serverid ∧ h.articlenum = n := by
  have hmem : ∀ sa, sa ∈ NntpCache.articles (c.additem h now).1.files ↔ sa = .ofHeader h ∨ sa ∈ NntpCache.articles c.files :=
    fun sa => (articles_additem hc).perm.mem_iff.trans List.mem_cons
  unfold NntpCache.Cached
  simp only [hmem, or_and_right, exists_or, exists_eq_left, NntpServerArticle.ofHeader_serverid,
    NntpServerArticle.ofHeader_articlenum]
  exact or_comm

theorem others_additem {h : NntpHeader} (hc : c.Inv) (hs : h.serverid = serverid) :
    others (c.additem h now).1 serverid = others c serverid :=
  (articles_additem hc).filter (by simp [hs])

/-- The headers of the rows come to the server's numbers, and its interval grows by them. -/
structure Gained (c c' : NntpCache) (serverid : UInt64) (rows : List OverviewRow) : Prop where
  inv : c'.Inv
  bounded : c'.Bounded serverid
  cached : ∀ n, c'.Cached serverid n ↔ c.Cached serverid n ∨ n ∈ rows.map (·.articlenum)
  others : others c' serverid = others c serverid
  low : ∀ n, (c'.servinfo serverid).low ≤ n ↔ (c.servinfo serverid).low ≤ n ∨ ∃ m ∈ rows.map (·.articlenum), m ≤ n
  high : ∀ n, n ≤ (c'.servinfo serverid).high ↔ n ≤ (c.servinfo serverid).high ∨ ∃ m ∈ rows.map (·.articlenum), n ≤ m

theorem addRows_gained : ∀ (rows : List OverviewRow) (c : NntpCache), c.Inv → c.Bounded serverid →
    (∀ row ∈ rows, 0 < row.articlenum ∧ row.articlenum < Nrange.varmax) →
    Gained c (addRows decodeTextdate serverid group now rows c) serverid rows
  | [], c, hc, hb, _ => ⟨hc, hb, by simp [addRows], rfl, by simp [addRows], by simp [addRows]⟩
  | row :: rows, c, hc, hb, hin => by
    have hserver : (row.header decodeTextdate serverid group).serverid = serverid := row.header_serverid
    have hnum : (row.header decodeTextdate serverid group).articlenum = row.articlenum := row.header_articlenum
    have hrow := hin row List.mem_cons_self
    have ih := addRows_gained rows (c.additem (row.header decodeTextdate serverid group) now).1 hc.additem
      (hb.additem hc fun _ => hnum ▸ hrow) fun r hr => hin r (List.mem_cons_of_mem _ hr)
    have hinfo : (c.additem (row.header decodeTextdate serverid group) now).1.servinfo serverid =
        (c.servinfo serverid).addArticle row.articlenum := by
      rw [NntpCache.servinfo_additem, hserver, if_pos rfl, hnum]
    refine ⟨ih.inv, ih.bounded, fun n => ?_, ih.others.trans (others_additem hc hserver), fun n => ?_, fun n => ?_⟩
    · rw [addRows, List.foldl_cons, ← addRows, ih.cached n, cached_additem hc, hserver, hnum]
      simp only [List.map_cons, List.mem_cons, true_and, or_assoc, eq_comm]
    · rw [addRows, List.foldl_cons, ← addRows, ih.low n, hinfo, NntpCache.addArticle_low_le]
      simp only [List.map_cons, List.mem_cons, exists_eq_or_imp, or_assoc]
    · rw [addRows, List.foldl_cons, ← addRows, ih.high n, hinfo, NntpCache.le_addArticle_high]
      simp only [List.map_cons, List.mem_cons, exists_eq_or_imp, or_assoc]

theorem others_flush {range : Nrange} {midinfo : MetaMidInfo} :
    others (c.flush serverid range midinfo now).1 serverid = others c serverid := by
  unfold others
  rw [NntpCache.flush_articles, List.filter_filter]
  refine List.filter_congr fun sa _ => ?_
  by_cases hs : sa.serverid = serverid <;> simp [NntpCache.flushes, hs]

theorem others_flushBelow : others (flushBelow cfg low st now).cache cfg.serverid = others st.cache cfg.serverid := by
  unfold flushBelow
  split
  · exact others_flush
  · rfl

theorem flushBelow_holds {N : UInt64 → Prop} (hc : Holds st.cache cfg.serverid N) :
    Holds (flushBelow cfg low st now).cache cfg.serverid fun n => N n ∧ low ≤ n := by
  refine ⟨?_, ?_, fun n => ?_⟩
  · unfold flushBelow
    split
    · exact hc.inv.flushlow
    · exact hc.inv
  · unfold flushBelow
    split
    · next hlt => exact hc.bounded.flushlow hc.inv ((show (0 : UInt64) ≤ _ by grind).trans_lt hlt)
    · exact hc.bounded
  · have hpos := hc.bounded.low_pos
    have hmax := hc.bounded.high_lt
    rw [flushBelow_cached hc.inside, hc.cached n]
    grind

theorem flush_holds {N : UInt64 → Prop} {range : Nrange} {midinfo : MetaMidInfo} (hc : Holds c serverid N)
    (hr : range.Canonical) : Holds (c.flush serverid range midinfo now).1 serverid fun n => N n ∧ n ∉ range := by
  refine ⟨hc.inv.flush, hc.bounded.flush, fun n => ?_⟩
  rw [← hc.cached n]
  unfold NntpCache.Cached
  simp only [(NntpCache.flush_exact hc.bounded hc.inv hr).1, NntpCache.articles_withoutFiles, List.mem_filter,
    Bool.not_eq_true', ← Bool.not_eq_true, NntpCache.flushes_iff hr]
  constructor
  · rintro ⟨sa, ⟨hsa, hstay⟩, hs, rfl⟩
    exact ⟨⟨sa, hsa, hs, rfl⟩, fun hn => hstay ⟨hs, hn⟩⟩
  · rintro ⟨⟨sa, hsa, hs, rfl⟩, hn⟩
    exact ⟨sa, ⟨hsa, fun h => hn h.2⟩, hs, rfl⟩

theorem setLow_holds {N : UInt64 → Prop} (hc : Holds c serverid N) (hpos : 0 < low) (hN : ∀ n, N n → low ≤ n) :
    Holds (c.setServinfo serverid { c.servinfo serverid with low := low }) serverid N := by
  have hinfo : (c.setServinfo serverid { c.servinfo serverid with low := low }).servinfo serverid =
      { c.servinfo serverid with low := low } := by
    rw [NntpCache.servinfo_setServinfo, if_pos rfl]
  refine ⟨hc.inv.setLow, ⟨?_, ?_, fun sa hsa hs => ?_⟩, hc.cached⟩
  · rw [hinfo]
    exact hpos
  · rw [hinfo]
    exact hc.bounded.high_lt
  · rw [hinfo]
    exact hN _ ((hc.cached _).mp ⟨sa, hsa, hs, rfl⟩)

/-! ### The low end of a range -/

theorem low_eq_some {r : Nrange} (hr : r.Canonical) (hn : n ∈ r) (hleast : ∀ m ∈ r, n ≤ m) : r.low = some n := by
  obtain ⟨e, he, hle, hge⟩ := hn
  have hsorted := r.rlist.sorted
  unfold Nrange.low
  rw [SortedMap.mem_def] at he
  cases hentries : r.rlist.entries with
  | nil => simp [hentries] at he
  | cons a as =>
    have ha : a ∈ r.rlist := SortedMap.mem_def.mpr (by simp [hentries])
    have hlow := hleast a.2 ⟨a, ha, le_rfl, hr.low_le a ha⟩
    rw [hentries] at he hsorted
    rcases List.mem_cons.mp he with rfl | he
    · exact congrArg some (le_antisymm hle hlow)
    · have hlt := (List.pairwise_cons.mp hsorted).1 e he
      have hgap := hr.gap a ha e (SortedMap.mem_def.mpr (hentries ▸ List.mem_cons_of_mem _ he)) hlt
      have hae := hr.low_le a ha
      rw [UInt64.le_iff_toNat_le] at hle hlow hae
      omega

/-! ### The state that an update finds and leaves -/

/-- The cache holds the server's last set, and the interval is that of no article before the first update
    and, without `fullxover`, that of the set after it. -/
structure SyncInv (cfg : UpdateConfig) (c : NntpCache) (E : Option (Finset UInt64)) : Prop where
  holds : Holds c cfg.serverid fun n => ∃ old ∈ E, n ∈ old
  fresh : E = none → (c.servinfo cfg.serverid).low = Nrange.varmax ∧ (c.servinfo cfg.serverid).high = 0
  ends : cfg.fullxover = 0 → ∀ old ∈ E, IsLeast (old : Set UInt64) (c.servinfo cfg.serverid).low ∧
    IsGreatest (old : Set UInt64) (c.servinfo cfg.serverid).high

/-- What is cached when the articles are requested, and what is requested, make up the server's set, and its
    ends are those of the cached interval unless they are requested. -/
structure Requested (cfg : UpdateConfig) (c : NntpCache) (new : Finset UInt64) (low high : UInt64) (r : Nrange) : Prop where
  holds : ∃ N : UInt64 → Prop, Holds c cfg.serverid N ∧ ∀ n, N n ∨ n ∈ new ∧ n ∈ r ↔ n ∈ new
  low : cfg.fullxover = 0 → low ≤ (c.servinfo cfg.serverid).low ∧ ((c.servinfo cfg.serverid).low ≤ low ∨ low ∈ r)
  high : cfg.fullxover = 0 → (c.servinfo cfg.serverid).high ≤ high ∧ (high ≤ (c.servinfo cfg.serverid).high ∨ high ∈ r)

variable {E : Option (Finset UInt64)} {new : Finset UInt64} {answers : Answers}

theorem SyncInv.getserverinfo (hs : SyncInv cfg c E) : SyncInv cfg (c.getserverinfo cfg.serverid) E := by
  refine ⟨⟨hs.holds.inv.getserverinfo, hs.holds.bounded.getserverinfo, hs.holds.cached⟩, ?_, ?_⟩
  · rw [NntpCache.servinfo_getserverinfo]
    exact hs.fresh
  · rw [NntpCache.servinfo_getserverinfo]
    exact hs.ends

/-- The branch for `LISTGROUP`: what the server lacks is flushed, what the cache lacks is requested. -/
theorem listgroup_requested (hmax : cfg.maxheaders = -1) (hx : cfg.fullxover = 2) (hh : Honest answers new low high)
    (hs : SyncInv cfg st.cache E) {existing : Nrange} (hc : existing.Canonical) (hmem : ∀ n, n ∈ existing ↔ n ∈ new) :
    let p := listgroupUpdate cfg existing low st now
    Requested cfg p.1.cache new low high p.2 ∧ others p.1.cache cfg.serverid = others st.cache cfg.serverid := by
  obtain ⟨hinvc, hinv⟩ := Nrange.invert_spec Nrange.canonical_empty hc
  have hne0 : cfg.fullxover ≠ 0 := by
    rw [hx]
    decide
  have hlow : existing.low = some low :=
    low_eq_some hc ((hmem low).mpr hh.least.1) fun m hm => hh.least.2 ((hmem m).mp hm)
  have hflushed := @flush_holds _ _ now _ _ st.midinfo hs.holds hinvc
  have hothers := @others_flush st.cache cfg.serverid now ((∅ : Nrange).invert existing) st.midinfo
  have hgone : ∀ n, n ∉ (∅ : Nrange).invert existing ↔ n ∈ new := fun n => by
    rw [hinv, hmem]
    simp
  unfold listgroupUpdate
  simp only [hmax, ne_eq, not_true_eq_false, if_false, hlow, Option.getD_some]
  generalize st.cache.flush cfg.serverid ((∅ : Nrange).invert existing) st.midinfo now = flushed at *
  have hset := setLow_holds hflushed (hh.inside low hh.least.1).1 fun n hn => hh.least.2 ((hgone n).mp hn.2)
  obtain ⟨-, hrange⟩ := @NntpCache.getxrangeOf_spec
    (flushed.1.setServinfo cfg.serverid { flushed.1.servinfo cfg.serverid with low := low }) cfg.serverid _ hc
  refine ⟨⟨⟨_, hset, fun n => ?_⟩, fun h => absurd h hne0, fun h => absurd h hne0⟩, hothers⟩
  rw [hrange n, hmem n, hset.cached n, hgone n]
  tauto

/-- The other branch with `fullxover`: what is cached from `low` on stays, the rest of the interval is requested. -/
theorem fullxover_requested (hx : cfg.fullxover ≠ 0) (hh : Honest answers new low high) (hs : SyncInv cfg st.cache E)
    (hstay : ∀ old ∈ E, ∀ n ∈ old, low ≤ n → n ∈ new) :
    let c := (flushBelow cfg low st now).cache
    Requested cfg c new low high (intervalRange cfg low high c) := by
  have hholds := @flushBelow_holds now cfg low st _ hs.holds
  have hlow := (@flushBelow_interval cfg low st now).2
  intro c
  obtain ⟨hc, hmem⟩ := Nrange.insert_spec Nrange.canonical_empty (hh.least.2 hh.greatest.1)
  obtain ⟨-, hrange⟩ := @NntpCache.getxrangeOf_spec c cfg.serverid _ hc
  refine ⟨⟨_, hholds, fun n => ?_⟩, fun h => absurd h hx, fun h => absurd h hx⟩
  rw [getxrange_eq hx (hlow ▸ le_max_right _ _), hrange n, hmem n, hholds.cached n]
  constructor
  · rintro (⟨⟨old, hold, hn⟩, hle⟩ | hn)
    · exact hstay old hold n hn hle
    · exact hn.1
  · intro hn
    by_cases hcached : (∃ old ∈ E, n ∈ old) ∧ low ≤ n
    · exact Or.inl hcached
    · exact Or.inr ⟨hn, Or.inr ⟨hh.least.2 hn, hh.greatest.2 hn⟩, hcached⟩

/-- The other branch without `fullxover`: what lies above the cached interval is requested, since what comes
    in comes in above it. -/
theorem interval_requested (hx : cfg.fullxover = 0) (hh : Honest answers new low high) (hs : SyncInv cfg st.cache E)
    (hdoc : ∀ old ∈ E, Documented cfg.fullxover old new) :
    let c := (flushBelow cfg low st now).cache
    Requested cfg c new low high (intervalRange cfg low high c) := by
  have hholds := @flushBelow_holds now cfg low st _ hs.holds
  obtain ⟨hsh, hsl⟩ := @flushBelow_interval cfg low st now
  intro c
  have hlh : low ≤ high := hh.least.2 hh.greatest.1
  cases E with
  | none =>
    obtain ⟨hfl, hfh⟩ := hs.fresh rfl
    have hr : intervalRange cfg low high c = (∅ : Nrange).insert low high := by
      simp only [intervalRange, hx, ne_eq, not_true_eq_false, if_false, c, hsh, hfh, if_true]
    obtain ⟨-, hmem⟩ := Nrange.insert_spec Nrange.canonical_empty hlh
    refine ⟨⟨_, hholds, fun n => ?_⟩, fun _ => ⟨?_, Or.inr ?_⟩, fun _ => ⟨?_, Or.inr ?_⟩⟩
    · rw [hr, hmem n]
      constructor
      · rintro (⟨⟨old, hold, -⟩, -⟩ | hn)
        · cases hold
        · exact hn.1
      · exact fun hn => Or.inr ⟨hn, Or.inr ⟨hh.least.2 hn, hh.greatest.2 hn⟩⟩
    · rw [hsl]
      exact le_max_right _ _
    · rw [hr, hmem low]
      exact Or.inr ⟨le_rfl, hlh⟩
    · rw [hsh, hfh]
      exact UInt64.zero_le
    · rw [hr, hmem high]
      exact Or.inr ⟨hlh, le_rfl⟩
  | some old =>
    obtain ⟨hleast, hgreatest⟩ := hs.ends hx old rfl
    obtain ⟨hgone, hcome⟩ := hdoc old rfl
    have hgone := hgone (Or.inl hx)
    have hcome := hcome hx
    have hne : (st.cache.servinfo cfg.serverid).high ≠ 0 := by
      have := hs.holds.bounded.low_pos
      have := hleast.2 hgreatest.1
      grind
    generalize (st.cache.servinfo cfg.serverid).low = sl at *
    generalize (st.cache.servinfo cfg.serverid).high = sh at *
    -- The server's low end is not below the cached one, nor its high end.
    have hlow : sl ≤ low := by
      by_cases hin : low ∈ old
      · exact hleast.2 hin
      · exact (hcome low hh.least.1 hin sl hleast.1).le
    have hhigh : sh ≤ high := by
      by_cases hin : sh ∈ new
      · exact hh.greatest.2 hin
      · exact (hgone sh hgreatest.1 hin high hh.greatest.1).le
    rw [max_eq_right hlow] at hsl
    have hmem : ∀ n, n ∈ intervalRange cfg low high c ↔ sh < n ∧ n ≤ high := fun n => by
      have := (@interval_spec high low sh low).2 n
      simp only [intervalRange, hx, ne_eq, not_true_eq_false, if_false, c, hsh, hsl, hne]
      rw [this]
      grind
    refine ⟨⟨_, hholds, fun n => ?_⟩, fun _ => ⟨hsl.ge, Or.inl hsl.le⟩, fun _ => ⟨hsh.trans_le hhigh, ?_⟩⟩
    · rw [hmem n]
      constructor
      · rintro (⟨⟨old', hold, hn⟩, hle⟩ | hn)
        · cases hold
          by_contra hnot
          exact absurd (hgone n hn hnot low hh.least.1) (not_lt.mpr hle)
        · exact hn.1
      · intro hn
        by_cases hin : n ∈ old
        · exact Or.inl ⟨⟨old, rfl, hin⟩, hh.least.2 hn⟩
        · exact Or.inr ⟨hn, hcome n hn hin sh hgreatest.1, hh.greatest.2 hn⟩
    · rw [hsh, hmem]
      exact (le_or_gt high sh).imp id fun h => ⟨h, le_rfl⟩

theorem effectiveLow_of_unlimited (hmax : cfg.maxheaders = -1) : effectiveLow cfg low high = low := by
  simp [effectiveLow, hmax]

/-- Each branch of an update leads to a request that completes what is cached. -/
theorem headerUpdate_requested (hmax : cfg.maxheaders = -1)
    (hx : cfg.fullxover = 0 ∨ cfg.fullxover = 1 ∨ cfg.fullxover = 2) (hh : Honest answers new low high)
    (hs : SyncInv cfg st.cache E) (hdoc : ∀ old ∈ E, Documented cfg.fullxover old new) :
    ∃ st' r, headerUpdate cfg answers low high st now = .ok (st', r) ∧ Requested cfg st'.cache new low high r ∧
      others st'.cache cfg.serverid = others st.cache cfg.serverid := by
  have hs' := hs.getserverinfo
  unfold headerUpdate
  dsimp only
  split
  · next hcond =>
    simp only [Bool.and_eq_true, decide_eq_true_eq] at hcond
    obtain ⟨existing, hok, hc, hmem⟩ := dolistgroup_spec hh
      { st with cache := st.cache.getserverinfo cfg.serverid, sent := st.sent ++ ["LISTGROUP".toList] }
    obtain ⟨hreq, hothers⟩ := @listgroup_requested now cfg low high
      { st with cache := st.cache.getserverinfo cfg.serverid, sent := st.sent ++ ["LISTGROUP".toList] } _ _ _
      hmax hcond.2 hh hs' _ hc hmem
    refine ⟨_, _, ?_, hreq, hothers⟩
    simp only [bind, Except.bind]
    rw [hok]
  · next hcond =>
    refine ⟨_, _, rfl, ?_, @others_flushBelow now cfg _ { st with cache := st.cache.getserverinfo cfg.serverid }⟩
    rw [effectiveLow_of_unlimited hmax]
    by_cases hx0 : cfg.fullxover = 0
    · exact interval_requested hx0 hh hs' hdoc
    · refine fullxover_requested hx0 hh hs' fun old hold n hn hle => ?_
      rcases hx with h | h | h
      · exact absurd h hx0
      · by_contra hnot
        exact absurd ((hdoc old hold).1 (Or.inr h) n hn hnot low hh.least.1) (not_lt.mpr hle)
      · -- With `fullxover` 2 this branch is taken only when nothing is cached from `low` on.
        simp only [h, decide_true, Bool.and_true, Bool.and_eq_true, decide_eq_true_eq, not_and, not_le] at hcond
        obtain ⟨sa, hsa, hsid, rfl⟩ := (hs'.holds.cached n).mpr ⟨old, hold, hn⟩
        have hin := hs'.holds.inside sa hsa hsid
        have hpos := hs'.holds.bounded.low_pos
        have := hcond (by grind)
        exact absurd (hle.trans hin.2) (not_le.mpr this)

/-! ### An update -/

theorem nntpDogroup_eq (hh : Honest answers new low high) : nntpDogroup decodeTextdate cfg answers group true now st =
    (headerUpdate cfg answers low high
      { st with curgroup := some group, sent := st.sent ++ ["GROUP ".toList ++ group] } now).bind fun p =>
        doxover decodeTextdate cfg.serverid group now answers.xover p.2 p.1 := by
  obtain ⟨hcode, num, hnums⟩ := group_spec hh
  unfold nntpDogroup
  simp only [Bool.or_true, if_true, bind, Except.bind, chkreply_ok hcode, hnums]

/-- The answers to the request complete the server's set. -/
theorem Requested.doxover {r : Nrange} (hreq : Requested cfg st.cache new low high r) (hh : Honest answers new low high) :
    ∃ st', doxover decodeTextdate cfg.serverid group now answers.xover r st = .ok st' ∧
      SyncInv cfg st'.cache (some new) ∧ others st'.cache cfg.serverid = others st.cache cfg.serverid := by
  obtain ⟨st', rows, hok, hcache, hrows⟩ :=
    @doxover_spec decodeTextdate cfg.serverid group now answers new low high hh r st
  obtain ⟨N, hN, hcover⟩ := hreq.holds
  have hin : ∀ row ∈ rows, 0 < row.articlenum ∧ row.articlenum < Nrange.varmax := fun row hrow =>
    hh.inside _ ((hrows _).mp (List.mem_map_of_mem hrow)).1
  have hgained : Gained st.cache st'.cache cfg.serverid rows := by
    rw [hcache]
    exact addRows_gained rows st.cache hN.inv hN.bounded hin
  refine ⟨st', hok, ⟨⟨hgained.inv, hgained.bounded, fun n => ?_⟩, fun h => absurd h (by simp), ?_⟩, hgained.others⟩
  · rw [hgained.cached n, hrows n, hN.cached n, hcover n]
    simp
  · rintro hx old hold
    cases hold
    obtain ⟨hle, hlow⟩ := hreq.low hx
    obtain ⟨hge, hhigh⟩ := hreq.high hx
    have hlow' : (st'.cache.servinfo cfg.serverid).low = low := by
      refine le_antisymm ((hgained.low low).mpr ?_) ?_
      · exact hlow.imp id fun h => ⟨low, (hrows low).mpr ⟨hh.least.1, h⟩, le_rfl⟩
      · rcases (hgained.low _).mp le_rfl with h | ⟨m, hm, h⟩
        · exact hle.trans h
        · exact (hh.least.2 ((hrows m).mp hm).1).trans h
    have hhigh' : (st'.cache.servinfo cfg.serverid).high = high := by
      refine le_antisymm ?_ ((hgained.high high).mpr ?_)
      · rcases (hgained.high _).mp le_rfl with h | ⟨m, hm, h⟩
        · exact h.trans hge
        · exact h.trans (hh.greatest.2 ((hrows m).mp hm).1)
      · exact hhigh.imp id fun h => ⟨high, (hrows high).mpr ⟨hh.greatest.1, h⟩, le_rfl⟩
    rw [hlow', hhigh']
    exact ⟨hh.least, hh.greatest⟩

theorem SyncInv.update (hmax : cfg.maxheaders = -1) (hx : cfg.fullxover = 0 ∨ cfg.fullxover = 1 ∨ cfg.fullxover = 2)
    (hh : Honest answers new low high) (hs : SyncInv cfg st.cache E)
    (hdoc : ∀ old ∈ E, Documented cfg.fullxover old new) :
    ∃ st', nntpDogroup decodeTextdate cfg answers group true now st = .ok st' ∧
      SyncInv cfg st'.cache (some new) ∧ others st'.cache cfg.serverid = others st.cache cfg.serverid := by
  obtain ⟨st1, r, hok, hreq, hothers⟩ := @headerUpdate_requested now cfg low high
    { st with curgroup := some group, sent := st.sent ++ ["GROUP ".toList ++ group] } _ _ _ hmax hx hh hs hdoc
  obtain ⟨st', hok', hs', hothers'⟩ := hreq.doxover hh
  refine ⟨st', ?_, hs', hothers'.trans hothers⟩
  rw [nntpDogroup_eq hh, hok]
  exact hok'

theorem SyncInv.other {h : NntpHeader} (hs : SyncInv cfg c E) (hserver : h.serverid ≠ cfg.serverid) :
    SyncInv cfg (c.additem h now).1 E := by
  have hinfo : (c.additem h now).1.servinfo cfg.serverid = c.servinfo cfg.serverid := by
    rw [NntpCache.servinfo_additem, if_neg fun heq => hserver heq.symm]
  refine ⟨⟨hs.holds.inv.additem, hs.holds.bounded.additem hs.holds.inv fun heq => absurd heq hserver, fun n => ?_⟩, ?_, ?_⟩
  · rw [cached_additem hs.holds.inv, hs.holds.cached n]
    simp [hserver]
  · rw [hinfo]
    exact hs.fresh
  · rw [hinfo]
    exact hs.ends

/-- The invariant holds in every session of a run. -/
theorem Synced.syncInv (hmax : cfg.maxheaders = -1) (hx : cfg.fullxover = 0 ∨ cfg.fullxover = 1 ∨ cfg.fullxover = 2)
    (hrun : Synced decodeTextdate cfg group st E) : SyncInv cfg st.cache E := by
  induction hrun with
  | @start st name saveit fileread empty =>
    rw [empty]
    have hcached : ∀ n, ¬NntpCache.Cached { group := name, saveit, fileread } cfg.serverid n := by
      simp [NntpCache.Cached, NntpCache.articles]
    have hinv := NntpCache.inv_empty
    refine ⟨⟨⟨hinv.files, hinv.sorted, hinv.totalnum, hinv.serverid, hinv.num, hinv.high⟩,
      NntpCache.bounded_empty.of_eq rfl rfl fun _ hsa => hsa, fun n => ?_⟩, fun _ => ⟨rfl, rfl⟩, fun _ _ h => by cases h⟩
    simpa using hcached n
  | other run server add ih =>
    rw [add]
    exact ih.other server
  | update run honest documented ok ih =>
    obtain ⟨st'', hok, hs, -⟩ := ih.update hmax hx honest documented
    rw [hok] at ok
    cases ok
    exact hs

end

/-- After every update of a run with `maxheaders` -1 and one mode of `fullxover`, the cache holds for the
    server exactly the articles that the server has, and the other servers' articles are as before. -/
theorem header_sync (decodeTextdate : Text → Int64) (cfg : UpdateConfig) (group : Text) (hmax : cfg.maxheaders = -1)
    (hx : cfg.fullxover = 0 ∨ cfg.fullxover = 1 ∨ cfg.fullxover = 2) {st : Session} {E : Option (Finset UInt64)}
    (hrun : Synced decodeTextdate cfg group st E) {new : Finset UInt64} {low high : UInt64} {answers : Answers}
    (hh : Honest answers new low high) (hdoc : ∀ old ∈ E, Documented cfg.fullxover old new) (now : Int64) :
    ∃ st', nntpDogroup decodeTextdate cfg answers group true now st = .ok st' ∧
      Synced decodeTextdate cfg group st' (some new) ∧
      (∀ n, st'.cache.Cached cfg.serverid n ↔ n ∈ new) ∧
      others st'.cache cfg.serverid = others st.cache cfg.serverid := by
  obtain ⟨st', hok, hs, hothers⟩ := (hrun.syncInv hmax hx).update hmax hx hh hdoc
  refine ⟨st', hok, hrun.update hh hdoc hok, fun n => ?_, hothers⟩
  rw [hs.holds.cached n]
  simp

def sampleRow (articlenum : UInt64) : OverviewRow :=
  { articlenum, subject := [], author := [], date := [], messageid := [], references := [], bytes := 0, lines := 0,
    wellFormed := by simp }

/-- What a server answers that has the articles `ns`, with empty overviews. -/
def sampleAnswers (ns : List UInt64) (low high : UInt64) : Answers where
  group := "211 ".toList ++ (printUlong ns.length.toUInt64 ++ ' ' :: (printUlong low ++ ' ' :: (printUlong high ++ [' '])))
  listgroup := ⟨"211".toList, ns.map printUlong ++ [['.']]⟩
  xover a b := ⟨"224".toList, ((ns.filter fun n => a ≤ n && n ≤ b).map (sampleRow · |>.line)) ++ [['.']]⟩

theorem sampleAnswers_honest {ns : List UInt64} {low high : UInt64} (hin : ∀ n ∈ ns, 0 < n ∧ n < Nrange.varmax)
    (hleast : IsLeast (ns.toFinset : Set UInt64) low) (hgreatest : IsGreatest (ns.toFinset : Set UInt64) high) :
    Honest (sampleAnswers ns low high) ns.toFinset low high where
  inside n hn := hin n (List.mem_toFinset.mp hn)
  least := hleast
  greatest := hgreatest
  group := ⟨ns.length.toUInt64, [], rfl⟩
  xover_reply _ _ := show atoi "224".toList = 224 by decide
  xover a b := by
    refine ⟨(ns.filter fun n => a ≤ n && n ≤ b).map sampleRow, by simp [sampleAnswers], fun n => ?_⟩
    simp [sampleRow]
  listgroup_reply := show atoi "211".toList = 211 by decide
  listgroup := ⟨ns, rfl, fun n => List.mem_toFinset.symm⟩

def sampleConfig : UpdateConfig := { serverid := 1, fullxover := 0, maxheaders := -1 }

/-- A server that has article 3, and then articles 3 and 4. -/
theorem header_sync_sample : ∃ st st', Synced (fun _ => 0) sampleConfig [] st (some [3].toFinset) ∧
    nntpDogroup (fun _ => 0) sampleConfig (sampleAnswers [3, 4] 3 4) [] true 0 st = .ok st' ∧
    ∀ n, st'.cache.Cached 1 n ↔ n ∈ [3, 4].toFinset := by
  have hfirst : Honest (sampleAnswers [3] 3 3) [3].toFinset 3 3 :=
    sampleAnswers_honest (by simp [Nrange.varmax]) (by simp) (by simp)
  have hsecond : Honest (sampleAnswers [3, 4] 3 4) [3, 4].toFinset 3 4 :=
    sampleAnswers_honest (by simp [Nrange.varmax]) (by simp [IsLeast, lowerBounds]) (by simp [IsGreatest, upperBounds])
  have hstart : Synced (fun _ => 0) sampleConfig [] { cache := ∅ } none := .start rfl
  obtain ⟨st, -, hrun, -⟩ := header_sync (fun _ => 0) sampleConfig [] rfl (Or.inl rfl) hstart hfirst (by simp) 0
  obtain ⟨st', hok, -, hcached, -⟩ := header_sync (fun _ => 0) sampleConfig [] rfl (Or.inl rfl) hrun hsecond
    (by simp [Documented]) 0
  exact ⟨st, st', hrun, hok, hcached⟩

end Nget

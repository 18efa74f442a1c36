import Nget.Theorems.CacheInv
import Nget.Theorems.NrangeCuts

/-! What `flush` and `flushlow` take out of the cache. The loops leave the files without the articles that
    `flushes` holds of, the parts that lose all their articles and the files that lose all their parts, and
    they count both exactly (`flush_spec`), so the invariant is kept. Which articles these are is decided
    by the flushed range once it is cut to the server's interval, in arithmetic that wraps at both ends. -/

namespace Nget
namespace NntpCache
variable {c : NntpCache} {g : NntpServerArticle → Bool} {serverid newlow : UInt64} {range : Nrange} {now : Int64}
  {midinfo : MetaMidInfo}

/-- The part without the articles that satisfy `g`. -/
def withoutPart (g : NntpServerArticle → Bool) (p : NntpPart) : NntpPart :=
  { p with articles := p.articles.filter fun sa => !g sa }

/-- The parts without these articles, and without the parts that had no others. -/
def withoutParts (g : NntpServerArticle → Bool) (parts : List NntpPart) : List NntpPart :=
  (parts.map (withoutPart g)).filter fun p => !p.articles.isEmpty

/-- The file without these articles, with its parts counted anew. -/
def withoutFile (g : NntpServerArticle → Bool) (f : NntpFile) : NntpFile :=
  { f with parts := withoutParts g f.parts, haveNum := NntpFile.countParts f.req (withoutParts g f.parts) }

/-- The files without these articles, and without the files that had no other parts. -/
def withoutFiles (g : NntpServerArticle → Bool) (files : List NntpFile) : List NntpFile :=
  (files.map (withoutFile g)).filter fun f => !f.parts.isEmpty

/-! ### The loops -/

theorem withoutParts_cons {p : NntpPart} {ps : List NntpPart} : withoutParts g (p :: ps) =
    if (p.articles.filter fun sa => !g sa).isEmpty then withoutParts g ps else withoutPart g p :: withoutParts g ps := by
  unfold withoutParts
  rw [List.map_cons, List.filter_cons]
  cases h : (p.articles.filter fun sa => !g sa).isEmpty <;> simp only [withoutPart, h] <;> rfl

theorem withoutFiles_cons {f : NntpFile} {fs : List NntpFile} : withoutFiles g (f :: fs) =
    if (withoutParts g f.parts).isEmpty then withoutFiles g fs else withoutFile g f :: withoutFiles g fs := by
  unfold withoutFiles
  rw [List.map_cons, List.filter_cons]
  cases h : (withoutParts g f.parts).isEmpty <;> simp only [withoutFile, h] <;> rfl

theorem flushArticles_eq : ∀ sas : List NntpServerArticle, flushArticles serverid range sas =
    (sas.filter fun sa => !flushes serverid range sa, UInt64.ofNat (sas.countP (flushes serverid range)))
  | [] => rfl
  | sa :: sas => by
    unfold flushArticles
    rw [flushArticles_eq sas]
    by_cases hsa : flushes serverid range sa = true
    · simp [hsa, UInt64.ofNat_add]
    · simp [hsa]

/-- The loop over a file's parts leaves the parts that keep an article, and counts what goes. -/
theorem flushParts_spec {req : Int32} {haveNum : Int} {st : FlushState} : ∀ parts : List NntpPart,
    let r := flushParts serverid range req now parts haveNum st
    let left := withoutParts (flushes serverid range) parts
    r.1 = left ∧ r.2.1 = haveNum - NntpFile.countParts req parts + NntpFile.countParts req left ∧
      r.2.2.count = st.count + UInt64.ofNat ((parts.flatMap (·.articles)).countP (flushes serverid range)) ∧
      r.2.2.countp + UInt64.ofNat left.length = st.countp + UInt64.ofNat parts.length
  | [] => by simp [flushParts, withoutParts, NntpFile.countParts]
  | p :: ps => by
    obtain ⟨hparts, hhave, hcount, hcountp⟩ := @flushParts_spec req haveNum st ps
    unfold flushParts
    rw [flushArticles_eq]
    dsimp only at *
    generalize flushParts serverid range req now ps haveNum st = r at *
    rw [withoutParts_cons]
    simp only [NntpFile.countParts, List.countP_cons, List.flatMap_cons, List.countP_append, List.length_cons] at *
    split
    · refine ⟨hparts, ?_, ?_, ?_⟩
      · dsimp only
        rw [hhave]
        split <;> push_cast <;> omega
      · dsimp only
        rw [hcount, UInt64.ofNat_add]
        grind
      · dsimp only
        rw [UInt64.ofNat_add]
        grind
    · refine ⟨by rw [hparts]; rfl, ?_, ?_, ?_⟩
      · dsimp only
        rw [hhave, List.countP_cons]
        show _ = _ + ((_ + if countPartnum p.partnum req then 1 else 0 : Nat) : Int)
        split <;> push_cast <;> omega
      · rw [UInt64.ofNat_add]
        split <;> dsimp only <;> rw [hcount] <;> grind
      · rw [List.length_cons, UInt64.ofNat_add, UInt64.ofNat_add]
        split <;> dsimp only <;> grind

/-- The loop over the files leaves the files that keep a part. -/
theorem flushFiles_spec : ∀ (files : List NntpFile) (st : FlushState), (∀ f ∈ files, f.WellFormed) →
    let r := flushFiles serverid range now files st
    let left := withoutFiles (flushes serverid range) files
    r.1 = left ∧ r.2.count = st.count + UInt64.ofNat ((articles files).countP (flushes serverid range)) ∧
      r.2.countp + UInt64.ofNat (numParts left) = st.countp + UInt64.ofNat (numParts files)
  | [], st, _ => by simp [flushFiles, withoutFiles, articles, numParts]
  | f :: fs, st, hf => by
    obtain ⟨hparts, hhave, hcount, hcountp⟩ := @flushParts_spec serverid range now f.req f.haveNum st f.parts
    have hfs : ∀ f ∈ fs, f.WellFormed := fun f h => hf f (List.mem_cons_of_mem _ h)
    unfold flushFiles
    dsimp only at *
    generalize flushParts serverid range f.req now f.parts f.haveNum st = r at *
    rw [withoutFiles_cons, ← hparts]
    simp only [articles_cons, List.countP_append, numParts_cons]
    split
    · next hnil =>
      obtain ⟨hfiles', hcount', hcountp'⟩ := flushFiles_spec fs { r.2.2 with countf := r.2.2.countf + 1 } hfs
      refine ⟨hfiles', ?_, ?_⟩
      · rw [hcount', hcount, UInt64.add_assoc, ← UInt64.ofNat_add]
        rfl
      · rw [hcountp', UInt64.ofNat_add, ← UInt64.add_assoc, ← hcountp, ← hparts, List.isEmpty_iff.mp hnil]
        simp
    · obtain ⟨hfiles', hcount', hcountp'⟩ := flushFiles_spec fs r.2.2 hfs
      refine ⟨?_, ?_, ?_⟩
      · dsimp only
        rw [hfiles', hhave, (hf f List.mem_cons_self).haveNum, Int.sub_self, Int.zero_add, hparts]
        rfl
      · dsimp only
        rw [hcount', hcount, UInt64.add_assoc, ← UInt64.ofNat_add]
        rfl
      · dsimp only
        rw [numParts_cons, UInt64.ofNat_add, UInt64.ofNat_add]
        show _ + (UInt64.ofNat (withoutParts _ f.parts).length + _) = _
        grind

/-! ### The files that are left -/

theorem articles_withoutParts : ∀ parts : List NntpPart,
    (withoutParts g parts).flatMap (·.articles) = (parts.flatMap (·.articles)).filter fun sa => !g sa
  | [] => rfl
  | p :: ps => by
    rw [withoutParts_cons, List.flatMap_cons, List.filter_append, ← articles_withoutParts ps]
    split
    · next hnil => rw [List.isEmpty_iff.mp hnil, List.nil_append]
    · rfl

theorem articles_withoutFiles : ∀ files : List NntpFile,
    articles (withoutFiles g files) = (articles files).filter fun sa => !g sa
  | [] => rfl
  | f :: fs => by
    rw [withoutFiles_cons, articles_cons, List.filter_append, ← articles_withoutFiles fs]
    unfold NntpFile.articles
    rw [← articles_withoutParts]
    split
    · next hnil => rw [List.isEmpty_iff.mp hnil, List.flatMap_nil, List.nil_append]
    · rfl

theorem withoutParts_congr {g' : NntpServerArticle → Bool} {parts : List NntpPart}
    (hg : ∀ p ∈ parts, ∀ sa ∈ p.articles, g sa = g' sa) : withoutParts g parts = withoutParts g' parts := by
  unfold withoutParts
  rw [List.map_congr_left fun p hp => ?_]
  unfold withoutPart
  rw [List.filter_congr fun sa hsa => by rw [hg p hp sa hsa]]

theorem withoutFiles_congr {g' : NntpServerArticle → Bool} {files : List NntpFile}
    (hg : ∀ sa ∈ articles files, g sa = g' sa) : withoutFiles g files = withoutFiles g' files := by
  unfold withoutFiles
  rw [List.map_congr_left fun f hf => ?_]
  unfold withoutFile
  rw [withoutParts_congr fun p hp sa hsa => hg sa ?_]
  exact List.mem_flatMap.mpr ⟨f, hf, List.mem_flatMap.mpr ⟨p, hp, hsa⟩⟩

theorem withoutParts_false {parts : List NntpPart} (hp : ∀ p ∈ parts, p.articles ≠ []) :
    withoutParts (fun _ => false) parts = parts := by
  have hid : withoutPart (fun _ => false) = id := by
    funext p
    simp [withoutPart]
  rw [withoutParts, hid, List.map_id, List.filter_eq_self]
  exact fun p h => by simpa using hp p h

theorem withoutFiles_false {files : List NntpFile} (hf : ∀ f ∈ files, f.WellFormed) :
    withoutFiles (fun _ => false) files = files := by
  have hid : ∀ f ∈ files, withoutFile (fun _ => false) f = id f := fun f h => by
    unfold withoutFile
    rw [withoutParts_false (hf f h).articles, ← (hf f h).haveNum]
    rfl
  rw [withoutFiles, List.map_congr_left hid, List.map_id, List.filter_eq_self]
  exact fun f h => by simpa using (hf f h).nonempty

theorem mem_withoutParts {parts : List NntpPart} {q : NntpPart} (hq : q ∈ withoutParts g parts) : q.articles ≠ [] := by
  simpa using (List.mem_filter.mp hq).2

theorem wellFormed_withoutFiles {files : List NntpFile} (hf : ∀ f ∈ files, f.WellFormed) :
    ∀ f ∈ withoutFiles g files, f.WellFormed := by
  intro f' hf'
  obtain ⟨hmem, hne⟩ := List.mem_filter.mp hf'
  obtain ⟨f, hfm, rfl⟩ := List.mem_map.mp hmem
  refine ⟨by simpa using hne, ?_, fun p hp => mem_withoutParts hp, rfl⟩
  have hinc : NntpFileParts.Increasing (f.parts.map (withoutPart g)) := List.pairwise_map.mpr (hf f hfm).increasing
  exact hinc.sublist List.filter_sublist

theorem sorted_withoutFiles {files : List NntpFile} (hs : Sorted files) : Sorted (withoutFiles g files) := by
  have hmap : Sorted (files.map (withoutFile g)) := List.pairwise_map.mpr hs
  exact hmap.sublist List.filter_sublist

/-! ### `flush` -/

/-- The flushed range cut to the interval that the cache has of the server. -/
def restrict (c : NntpCache) (serverid : UInt64) (range : Nrange) : Nrange :=
  (range.remove 0 ((c.servinfo serverid).low - 1)).remove ((c.servinfo serverid).high + 1) Nrange.varmax

theorem check_of_empty (h : range.empty = true) (n : UInt64) : range.check n = false := by
  unfold Nrange.check
  rw [SortedMap.lowerBound_eq_none_iff.mpr fun x hx => absurd hx (SortedMap.isEmpty_iff.mp h x)]

theorem articles_flushFiles : ∀ (files : List NntpFile) (st : FlushState),
    articles (flushFiles serverid range now files st).1 = (articles files).filter fun sa => !flushes serverid range sa
  | [], _ => rfl
  | f :: fs, st => by
    have hparts := (@flushParts_spec serverid range now f.req f.haveNum st f.parts).1
    unfold flushFiles
    dsimp only at *
    generalize flushParts serverid range f.req now f.parts f.haveNum st = r at *
    rw [articles_cons, List.filter_append]
    unfold NntpFile.articles
    rw [← articles_withoutParts, ← hparts]
    split
    · next hnil =>
      rw [articles_flushFiles fs, List.isEmpty_iff.mp hnil, List.flatMap_nil, List.nil_append]
    · dsimp only
      rw [articles_cons, articles_flushFiles fs]
      rfl

theorem flushes_of_empty (h : range.empty = true) : flushes serverid range = fun _ => false := by
  funext sa
  simp [flushes, check_of_empty h]

/-- The articles that `flush` leaves, whatever the files are. -/
theorem flush_articles : articles (c.flush serverid range midinfo now).1.files =
    (articles c.files).filter fun sa => !flushes serverid (c.restrict serverid range) sa := by
  unfold flush
  dsimp only
  rw [show ((range.remove 0 ((c.servinfo serverid).low - 1)).remove ((c.servinfo serverid).high + 1) Nrange.varmax) =
    c.restrict serverid range from rfl]
  split
  · next hempty => simp [flushes_of_empty hempty]
  · exact articles_flushFiles _ _

/-- `flush` leaves the servers' intervals, and lowers the server's count by what it returns. -/
theorem servinfo_flush {s : UInt64} : (c.flush serverid range midinfo now).1.servinfo s =
    if s = serverid then { c.servinfo s with num := (c.servinfo s).num - (c.flush serverid range midinfo now).2.1 }
    else c.servinfo s := by
  unfold flush
  dsimp only
  split
  · split
    · simp
    · rfl
  · refine servinfo_setServinfo.trans ?_
    split
    · next hs => rw [hs]
    · rfl

/-- `flush` takes out the server's articles in the restricted range, and returns their number. -/
theorem flush_spec (hf : ∀ f ∈ c.files, f.WellFormed) :
    let r := c.flush serverid range midinfo now
    let g := flushes serverid (c.restrict serverid range)
    r.1.files = withoutFiles g c.files ∧ r.2.1 = UInt64.ofNat ((articles c.files).countP g) ∧
      r.1.totalnum = c.totalnum - UInt64.ofNat (numParts c.files) + UInt64.ofNat (numParts (withoutFiles g c.files)) := by
  unfold flush
  dsimp only
  rw [show ((range.remove 0 ((c.servinfo serverid).low - 1)).remove ((c.servinfo serverid).high + 1) Nrange.varmax) =
    c.restrict serverid range from rfl]
  split
  · next hempty =>
    rw [flushes_of_empty hempty, withoutFiles_false hf, List.countP_false]
    exact ⟨rfl, rfl, by simp⟩
  · obtain ⟨hfiles, hcount, hcountp⟩ := @flushFiles_spec serverid (c.restrict serverid range) now c.files { midinfo } hf
    dsimp only at *
    exact ⟨hfiles, by rw [hcount, UInt64.zero_add], by grind⟩

theorem Inv.flush (hc : c.Inv) : (c.flush serverid range midinfo now).1.Inv := by
  obtain ⟨hfiles, hcount, htotal⟩ := @flush_spec _ serverid range now midinfo hc.files
  have hinfo := fun s => @servinfo_flush c serverid range now midinfo s
  dsimp only at *
  generalize hr : c.flush serverid range midinfo now = r at *
  generalize hg : flushes serverid (c.restrict serverid range) = g at *
  have hserver : ∀ sa, g sa = true → sa.serverid = serverid := fun sa hsa => by
    rw [← hg] at hsa
    simpa using (Bool.and_eq_true_iff.mp hsa).1
  refine ⟨?_, ?_, ?_, ?_, fun s => ?_, fun sa hsa => ?_⟩
  · rw [hfiles]
    exact wellFormed_withoutFiles hc.files
  · rw [hfiles]
    exact sorted_withoutFiles hc.sorted
  · rw [htotal, hfiles, hc.totalnum, UInt64.sub_self, UInt64.zero_add]
  · rw [← hr]
    unfold NntpCache.flush
    dsimp only
    split
    · exact hc.serverid
    · exact serverid_setServinfo hc.serverid (servinfo_serverid hc.serverid)
  · rw [hinfo, hfiles]
    have hsplit := List.countP_eq_countP_filter_add (articles c.files) (fun sa => sa.serverid = s) g
    have hgone : ((articles c.files).filter g).countP (fun sa => sa.serverid = s) =
        if s = serverid then (articles c.files).countP g else 0 := by
      rw [List.countP_filter]
      split
      · next hs =>
        refine List.countP_congr fun sa _ => ?_
        simpa using fun hsa => (hserver sa hsa).trans hs.symm
      · next hs =>
        refine List.countP_eq_zero.mpr fun sa _ => ?_
        simpa using fun (hsa : sa.serverid = s) hgsa => hs (hsa.symm.trans (hserver sa hgsa))
    have hnum := hc.num s
    unfold countServer at hnum ⊢
    rw [articles_withoutFiles]
    rw [hsplit, hgone, UInt64.ofNat_add] at hnum
    split
    · next hs =>
      rw [if_pos hs] at hnum
      show (c.servinfo s).num - _ = _
      rw [hnum, hcount]
      grind
    · next hs =>
      rw [if_neg hs] at hnum
      rw [hnum]
      simp
  · rw [hinfo]
    rw [hfiles, articles_withoutFiles] at hsa
    have := hc.high sa (List.mem_filter.mp hsa).1
    split
    · exact this
    · exact this

end NntpCache
end Nget

import Nget.Theorems.CacheRun

/-! Whether a message is filed once. `additem` stops at the first file of the key that can take the part, and it
    does not look at the files behind it. So a message gets a second part exactly when a later file of the key has
    it and an earlier one lacks the part: a gap that `flush` makes. -/

namespace Nget
namespace NntpCache
variable {c : NntpCache} {h : NntpHeader} {now : Int64} {files files' : List NntpFile} {newpart : Bool}

/-- The key of a part's file, the part's number and its message-id. -/
abbrev Filing := NntpFileBase × Int32 × Text

def filing (f : NntpFile) (p : NntpPart) : Filing := (f.toNntpFileBase, p.partnum, p.messageid)

/-- What the parts of the files are filed under, part by part. -/
def filed (files : List NntpFile) : List Filing := files.flatMap fun f => f.parts.map (filing f)

/-- The header's message would be filed under this. -/
def filingOf (h : NntpHeader) : Filing := (h.toNntpFileBase, h.partnum, h.messageid)

/-- Of two files of the header's key, the first has a part of its number when the second has its message. -/
def NoGapBefore (h : NntpHeader) (files : List NntpFile) : Prop := files.Pairwise fun g f =>
  g.toNntpFileBase = h.toNntpFileBase → filingOf h ∈ f.parts.map (filing f) → NntpFileParts.part g.parts h.partnum ≠ none

@[simp] theorem filed_append {fs gs : List NntpFile} : filed (fs ++ gs) = filed fs ++ filed gs := by simp [filed]

@[simp] theorem filed_cons {f : NntpFile} {fs : List NntpFile} : filed (f :: fs) = f.parts.map (filing f) ++ filed fs := by
  simp [filed]

theorem mem_filed {x : Filing} : x ∈ filed files ↔ ∃ f ∈ files, x ∈ f.parts.map (filing f) := List.mem_flatMap

theorem mem_filing_iff {f : NntpFile} : filingOf h ∈ f.parts.map (filing f) ↔
    f.toNntpFileBase = h.toNntpFileBase ∧ ∃ p ∈ f.parts, p.partnum = h.partnum ∧ p.messageid = h.messageid := by
  simp only [List.mem_map, filing, filingOf, Prod.mk.injEq]
  constructor
  · rintro ⟨p, hp, hkey, hnum, hmid⟩
    exact ⟨hkey, p, hp, hnum, hmid⟩
  · rintro ⟨hkey, p, hp, hnum, hmid⟩
    exact ⟨p, hp, hkey, hnum, hmid⟩

/-! ### `additem` -/

/-- An article adds nothing to what is filed, and a part adds the header's message. -/
theorem Added.filed (ha : Added h now files files' newpart) (hf : ∀ f ∈ files, f.WellFormed) :
    if newpart then (NntpCache.filed files').Perm (filingOf h :: NntpCache.filed files)
    else NntpCache.filed files' = NntpCache.filed files ∧ filingOf h ∈ NntpCache.filed files := by
  cases ha with
  | @article pre post f p key part mid =>
    obtain ⟨before, after, hparts, hparts'⟩ := set_part part
    refine ⟨?_, mem_filed.mpr ⟨f, by simp,
      mem_filing_iff.mpr ⟨key, p, by simp [hparts], (NntpFileParts.part_eq_some part).2, mid⟩⟩⟩
    simp only [filed_append, filed_cons, hparts, hparts', List.map_append, List.map_cons]
    rfl
  | @part pre post f key part =>
    have hparts := (@addnewpart_parts now f (.ofHeader h) (hf f (by simp)).increasing).map (filing f)
    have hnew : filing f (.ofHeader h) = filingOf h := by
      unfold filing filingOf
      rw [key]
      rfl
    rw [if_pos rfl]
    simp only [filed_append, filed_cons]
    rw [List.map_cons, hnew] at hparts
    exact ((hparts.append_right _).append_left _).trans List.perm_middle
  | @file pre post before after conflicts =>
    rw [if_pos rfl]
    simp only [filed_append, filed_cons, newFile_parts, List.map_cons, List.map_nil]
    exact List.perm_middle

/-- A file with the part under another message-id does not have the message. -/
theorem Conflicts.not_filing {f : NntpFile} (hc : Conflicts h f) (hf : f.WellFormed) : filingOf h ∉ f.parts.map (filing f) := by
  obtain ⟨p, hp, hmid⟩ := hc
  intro hmem
  obtain ⟨-, q, hq, hnum, hqmid⟩ := mem_filing_iff.mp hmem
  have := (NntpFileParts.part_eq_some_iff hf.increasing).mpr ⟨hq, hnum⟩
  rw [hp] at this
  cases this
  exact hmid hqmid

theorem filing_of_part {f : NntpFile} {p : NntpPart} (hkey : f.toNntpFileBase = h.toNntpFileBase)
    (hp : NntpFileParts.part f.parts h.partnum = some p) (hmid : p.messageid = h.messageid) :
    filingOf h ∈ f.parts.map (filing f) :=
  mem_filing_iff.mpr ⟨hkey, p, List.mem_of_getElem? (NntpFileParts.part_eq_some hp).1, (NntpFileParts.part_eq_some hp).2, hmid⟩

theorem noGapBefore_of_not_filed (hnot : filingOf h ∉ filed files) : NoGapBefore h files :=
  List.pairwise_of_forall_mem_list fun _ _ f hf _ hmem => absurd (mem_filed.mpr ⟨f, hf, hmem⟩) hnot

/-- With no gap before its file, a message that is filed gets no part. -/
theorem Passed.not_filed (hp : Passed h files true) (hf : ∀ f ∈ files, f.WellFormed) (hgap : NoGapBefore h files) :
    filingOf h ∉ filed files := by
  obtain ⟨pre, post, rfl, hpre, hpost⟩ := hp
  intro hfiled
  obtain ⟨f, hfm, hmem⟩ := mem_filed.mp hfiled
  have hkey := (mem_filing_iff.mp hmem).1
  rcases List.mem_append.mp hfm with hfpre | hfpost
  · exact (hpre f hfpre hkey).not_filing (hf f hfm) hmem
  · cases post with
    | nil => cases hfpost
    | cons g post =>
      obtain ⟨hgkey, hgnone⟩ := hpost g rfl
      rw [if_pos rfl] at hgnone
      rcases List.mem_cons.mp hfpost with rfl | hfpost
      · obtain ⟨-, q, hq, hnum, -⟩ := mem_filing_iff.mp hmem
        exact (NntpFileParts.part_eq_none_iff (hf f hfm).increasing).mp hgnone q hq hnum
      · have hlater := (List.pairwise_append.mp hgap).2.1
        exact (List.pairwise_cons.mp hlater).1 f hfpost hgkey hmem hgnone

/-- A message that is filed once and gets an article has no gap before its file. -/
theorem Passed.noGapBefore (hp : Passed h files false) (hf : ∀ f ∈ files, f.WellFormed) (hnodup : (filed files).Nodup) :
    NoGapBefore h files := by
  obtain ⟨pre, post, rfl, hpre, hpost⟩ := hp
  have hnopre : ∀ f ∈ pre, filingOf h ∉ f.parts.map (filing f) := fun f hfpre hmem =>
    (hpre f hfpre (mem_filing_iff.mp hmem).1).not_filing (hf f (by simp [hfpre])) hmem
  have hpart : ∀ g ∈ pre, g.toNntpFileBase = h.toNntpFileBase → NntpFileParts.part g.parts h.partnum ≠ none := by
    intro g hg hkey hnone
    obtain ⟨p, hp, -⟩ := hpre g hg hkey
    rw [hnone] at hp
    cases hp
  refine List.pairwise_append.mpr ⟨?_, ?_, fun g hg f _ hkey _ => hpart g hg hkey⟩
  · exact List.pairwise_of_forall_mem_list fun g hg f hf' hkey hmem => absurd hmem (hnopre f hf')
  · cases post with
    | nil => exact List.Pairwise.nil
    | cons f post =>
      obtain ⟨hkey, hpart⟩ := hpost f rfl
      obtain ⟨p, hp, hmid⟩ := hpart
      have hnodup : (f.parts.map (filing f) ++ filed post).Nodup := by
        rw [filed_append, filed_cons] at hnodup
        exact (List.nodup_append.mp hnodup).2.1
      have hnot : filingOf h ∉ filed post := fun hmem =>
        (List.nodup_append.mp hnodup).2.2 _ (filing_of_part hkey hp hmid) _ hmem rfl
      refine List.pairwise_cons.mpr ⟨fun g hg _ hmem => ?_, noGapBefore_of_not_filed hnot⟩
      exact absurd (mem_filed.mpr ⟨g, hg, hmem⟩) hnot

/-- `additem` keeps that messages are filed once exactly when there is no gap before the header's message. -/
theorem additem_nodup_iff (hc : c.Inv) (hnodup : (filed c.files).Nodup) :
    (filed (c.additem h now).1.files).Nodup ↔ NoGapBefore h c.files := by
  obtain ⟨newpart, ha, -, hpassed⟩ := @additem_added _ h now hc.sorted
  have hfiled := ha.filed hc.files
  cases newpart with
  | true =>
    rw [if_pos rfl] at hfiled
    rw [hfiled.nodup_iff, List.nodup_cons]
    exact ⟨fun hnew => noGapBefore_of_not_filed hnew.1, fun hgap => ⟨hpassed.not_filed hc.files hgap, hnodup⟩⟩
  | false =>
    obtain ⟨hsame, -⟩ := hfiled
    rw [hsame]
    exact ⟨fun _ => hpassed.noGapBefore hc.files hnodup, fun _ => hnodup⟩

/-- A header whose message is filed, with no gap before it, becomes an article of that part. -/
theorem additem_article (hc : c.Inv) (hgap : NoGapBefore h c.files) (hmem : filingOf h ∈ filed c.files) :
    ∃ pre f p post, c.files = pre ++ f :: post ∧ f.toNntpFileBase = h.toNntpFileBase ∧
      NntpFileParts.part f.parts h.partnum = some p ∧ p.messageid = h.messageid ∧
        (c.additem h now).1.files = pre ++ withArticle h f p :: post := by
  obtain ⟨newpart, ha, -, hpassed⟩ := @additem_added _ h now hc.sorted
  have hwf := hc.files
  generalize c.files = files at *
  generalize (c.additem h now).1.files = files' at *
  cases ha with
  | article key part mid => exact ⟨_, _, _, _, rfl, key, part, mid, rfl⟩
  | part key part => exact absurd hmem (hpassed.not_filed hwf hgap)
  | file before after conflicts => exact absurd hmem (hpassed.not_filed hwf hgap)

/-! ### `flush` -/

theorem filing_withoutFile {g : NntpServerArticle → Bool} {f : NntpFile} :
    ((withoutFile g f).parts.map (filing (withoutFile g f))).Sublist (f.parts.map (filing f)) := by
  have hsub : (withoutParts g f.parts).Sublist (f.parts.map (withoutPart g)) := List.filter_sublist
  have hmap := hsub.map (filing f)
  rw [List.map_map] at hmap
  exact hmap

theorem filed_withoutFiles {g : NntpServerArticle → Bool} : ∀ files : List NntpFile,
    (filed (withoutFiles g files)).Sublist (filed files)
  | [] => List.Sublist.refl _
  | f :: fs => by
    rw [withoutFiles_cons, filed_cons]
    split
    · exact (filed_withoutFiles fs).trans (List.sublist_append_right _ _)
    · rw [filed_cons]
      exact filing_withoutFile.append (filed_withoutFiles fs)

theorem flush_nodup {serverid : UInt64} {range : Nrange} {midinfo : MetaMidInfo} (hc : c.Inv) (hnodup : (filed c.files).Nodup) :
    (filed (c.flush serverid range midinfo now).1.files).Nodup := by
  rw [(@flush_spec _ serverid range now midinfo hc.files).1]
  exact hnodup.sublist (filed_withoutFiles _)

/-! ### Runs -/

/-- Where an operation adds a header, there is no gap before its message. -/
def CacheOp.NoGap (c : NntpCache) : CacheOp → Prop
  | .additem h _ => NoGapBefore h c.files
  | _ => True

theorem apply_nodup {op : CacheOp} (hc : c.Inv) (hop : op.NoGap c) (hnodup : (filed c.files).Nodup) :
    (filed (c.apply op).files).Nodup := by
  cases op with
  | additem h now => exact (additem_nodup_iff hc hnodup).mpr hop
  | flush serverid flushrange midinfo now => exact flush_nodup (@Inv.getserverinfo c serverid hc) hnodup
  | flushlow serverid newlow newlow_pos midinfo now => exact flush_nodup (@Inv.getserverinfo c serverid hc) hnodup

/-- In a run whose headers come with no gap before their messages, no two parts under equal keys have the same number
    and the same message-id, and a header whose message is cached becomes another article of its one part. -/
theorem run_filed_once (ops : List CacheOp) (hops : ∀ pre op post, ops = pre ++ op :: post → op.NoGap (run pre)) :
    (filed (run ops).files).Nodup ∧ ∀ h now, NoGapBefore h (run ops).files → filingOf h ∈ filed (run ops).files →
      ∃ pre f p post, (run ops).files = pre ++ f :: post ∧ f.toNntpFileBase = h.toNntpFileBase ∧
        NntpFileParts.part f.parts h.partnum = some p ∧ p.messageid = h.messageid ∧
          (run (ops ++ [.additem h now])).files = pre ++ withArticle h f p :: post := by
  constructor
  · induction ops using List.reverseRecOn with
    | nil => exact List.nodup_nil
    | append_singleton ops op ih =>
      have hrun : run (ops ++ [op]) = (run ops).apply op := by simp [run]
      rw [hrun]
      refine apply_nodup (run_inv ops) (hops ops op [] rfl) (ih fun pre op' post heq => ?_)
      exact hops pre op' (post ++ [op]) (by simp [heq])
  · intro h now hgap hmem
    have hrun : run (ops ++ [.additem h now]) = ((run ops).additem h now).1 := by simp [run, apply]
    rw [hrun]
    exact additem_article (run_inv ops) hgap hmem

/-- An overview line of one part of a file of two parts. -/
def partHeader (serverid articlenum : UInt64) (partnum : Int32) (messageid : Text) : NntpHeader :=
  { (default : NntpHeader) with serverid, articlenum, partnum, messageid, req := 2 }

theorem run_filed_once_sample :
    (filed (run [.additem (partHeader 1 5 1 ['m']) 0, .additem (partHeader 2 9 1 ['m']) 0]).files).Nodup := by
  refine (run_filed_once [.additem (partHeader 1 5 1 ['m']) 0, .additem (partHeader 2 9 1 ['m']) 0] ?_).1
  intro pre op post heq
  rcases pre with _ | ⟨a, _ | ⟨b, pre⟩⟩
  · cases heq
    exact List.Pairwise.nil
  · cases heq
    exact List.pairwise_singleton _ _
  · simp at heq

/-- The flush of part 1 makes a gap in the first file, and the message that the second file has gets a part there. -/
theorem run_files_message_twice : ¬∀ ops, (filed (run ops).files).Nodup := by
  intro h
  have hnodup := h [.additem (partHeader 1 1 1 ['a']) 0, .additem (partHeader 1 2 2 ['b']) 0,
    .additem (partHeader 1 3 1 ['m']) 0,
      .flush 1 ⟨_, (Nrange.insert_spec Nrange.canonical_empty (show (1 : UInt64) ≤ 1 by decide)).1⟩ {} 0,
    .additem (partHeader 2 7 1 ['m']) 0]
  exact absurd hnodup (by decide)

end NntpCache
end Nget

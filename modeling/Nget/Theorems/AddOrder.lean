import Mathlib.Data.Multiset.Filter
import Nget.Header
import Nget.Lib.SortedList
import Nget.Theorems.CacheRun

/-! The order in which headers come. Where headers of one key and one part number have one message-id, the files that
    `additem` makes are told by the headers as a multiset (`FilesOf`): one file for each key, one part for each of
    its part numbers, one article for each header. So they are the same in every order, up to the order of the
    articles in a part, the dates, and the `tailoff` of a file, which is that of its first header. -/

namespace Nget

/-- The same part, up to the order of its articles and its date. -/
structure NntpPart.Same (p q : NntpPart) : Prop where
  partnum : p.partnum = q.partnum
  messageid : p.messageid = q.messageid
  articles : p.articles.Perm q.articles

namespace NntpFile

/-- The same key and parts, up to the order of the articles and the dates. -/
structure Same (f g : NntpFile) : Prop where
  key : f.toNntpFileBase = g.toNntpFileBase
  parts : List.Forall₂ NntpPart.Same f.parts g.parts
  haveNum : f.haveNum = g.haveNum

/-- The file has the parts that the headers of its key give. -/
structure Collects (f : NntpFile) (hs : Multiset NntpHeader) : Prop where
  wellFormed : f.WellFormed
  parts : ∀ h ∈ hs, h.toNntpFileBase = f.toNntpFileBase → ∃ p ∈ f.parts, p.partnum = h.partnum ∧ p.messageid = h.messageid
  articles : ∀ p ∈ f.parts, (p.articles : Multiset NntpServerArticle) =
    (hs.filter fun h => h.toNntpFileBase = f.toNntpFileBase ∧ h.partnum = p.partnum).map .ofHeader

variable {f g : NntpFile} {p : NntpPart} {hs : Multiset NntpHeader} {h : NntpHeader}

/-- Each part of a file has a header. -/
theorem Collects.exists_header (hf : f.Collects hs) (hp : p ∈ f.parts) :
    ∃ h ∈ hs, h.toNntpFileBase = f.toNntpFileBase ∧ h.partnum = p.partnum := by
  obtain ⟨sa, hsa⟩ := List.exists_mem_of_ne_nil _ (hf.wellFormed.articles p hp)
  have hmem : sa ∈ (p.articles : Multiset NntpServerArticle) := hsa
  rw [hf.articles p hp, Multiset.mem_map] at hmem
  obtain ⟨h, hh, -⟩ := hmem
  exact ⟨h, Multiset.mem_filter.mp hh⟩

/-- A part has the message-id of each of its headers. -/
theorem Collects.messageid (hf : f.Collects hs) (hp : p ∈ f.parts) (hh : h ∈ hs)
    (hkey : h.toNntpFileBase = f.toNntpFileBase) (hnum : h.partnum = p.partnum) : p.messageid = h.messageid := by
  obtain ⟨q, hq, hqnum, hqmid⟩ := hf.parts h hh hkey
  rw [SortedList.eq_of_key hf.wellFormed.increasing hp hq (hnum.symm.trans hqnum.symm)]
  exact hqmid

/-- Two files of one key that collect the same headers are the same. -/
theorem Collects.same (hf : f.Collects hs) (hg : g.Collects hs) (hkey : f.toNntpFileBase = g.toNntpFileBase) : f.Same g := by
  have hparts : ∀ {f g : NntpFile}, f.Collects hs → g.Collects hs → f.toNntpFileBase = g.toNntpFileBase →
      ∀ k, (∃ p ∈ f.parts, p.partnum = k) → ∃ p ∈ g.parts, p.partnum = k := by
    rintro f g hf hg hkey k ⟨p, hp, rfl⟩
    obtain ⟨h, hh, hhkey, hnum⟩ := hf.exists_header hp
    obtain ⟨q, hq, hqnum, -⟩ := hg.parts h hh (hhkey.trans hkey)
    exact ⟨q, hq, hqnum.trans hnum⟩
  have hsame : List.Forall₂ NntpPart.Same f.parts g.parts := by
    refine SortedList.forall₂_of_keys hf.wellFormed.increasing hg.wellFormed.increasing
      (fun k => ⟨hparts hf hg hkey k, hparts hg hf hkey.symm k⟩) fun p hp q hq hnum => ?_
    obtain ⟨h, hh, hhkey, hhnum⟩ := hf.exists_header hp
    refine ⟨hnum, ?_, Multiset.coe_eq_coe.mp ?_⟩
    · rw [hf.messageid hp hh hhkey hhnum, hg.messageid hq hh (hhkey.trans hkey) (hhnum.trans hnum)]
    · rw [hf.articles p hp, hg.articles q hq, hkey, hnum]
  refine ⟨hkey, hsame, ?_⟩
  have hcount : countParts f.req f.parts = countParts f.req g.parts := by
    unfold countParts
    generalize f.parts = ps, g.parts = qs at hsame
    induction hsame with
    | nil => rfl
    | cons hpq _ ih => rw [List.countP_cons, List.countP_cons, ih, hpq.partnum]
  rw [hf.wellFormed.haveNum, hg.wellFormed.haveNum, hcount, hkey]

end NntpFile

namespace NntpCache
variable {files files' : List NntpFile} {hs : Multiset NntpHeader} {h : NntpHeader} {now : Int64}

/-- Headers of one key and one part number have one message-id. -/
def Consistent (hs : Multiset NntpHeader) : Prop := ∀ a ∈ hs, ∀ b ∈ hs,
  a.toNntpFileBase = b.toNntpFileBase → a.partnum = b.partnum → a.messageid = b.messageid

/-- The files are those of the headers: one for each key, in the order of the keys. -/
structure FilesOf (hs : Multiset NntpHeader) (files : List NntpFile) : Prop where
  increasing : files.Pairwise fun f g => f.toNntpFileBase.lt g.toNntpFileBase = true
  keys : ∀ h ∈ hs, ∃ f ∈ files, f.toNntpFileBase = h.toNntpFileBase
  collects : ∀ f ∈ files, f.Collects hs

/-! ### The headers tell the files -/

theorem FilesOf.keys_increasing (hf : FilesOf hs files) :
    files.Pairwise fun f g => f.toNntpFileBase.key < g.toNntpFileBase.key :=
  hf.increasing.imp fun h => NntpFileBase.lt_iff.mp h

/-- The files of the headers are the same, however they were made. -/
theorem FilesOf.same (hf : FilesOf hs files) (hf' : FilesOf hs files') : List.Forall₂ NntpFile.Same files files' := by
  have hkeys : ∀ {files files' : List NntpFile}, FilesOf hs files → FilesOf hs files' →
      ∀ k, (∃ f ∈ files, f.toNntpFileBase.key = k) → ∃ f ∈ files', f.toNntpFileBase.key = k := by
    rintro files files' hf hf' k ⟨f, hfm, rfl⟩
    have hcollects := hf.collects f hfm
    obtain ⟨p, hp⟩ := List.exists_mem_of_ne_nil _ hcollects.wellFormed.nonempty
    obtain ⟨h, hh, hkey, -⟩ := hcollects.exists_header hp
    obtain ⟨g, hg, hgkey⟩ := hf'.keys h hh
    exact ⟨g, hg, by rw [hgkey, hkey]⟩
  refine SortedList.forall₂_of_keys hf.keys_increasing hf'.keys_increasing
    (fun k => ⟨hkeys hf hf' k, hkeys hf' hf k⟩) fun f hfm g hgm hkey => ?_
  exact (hf.collects f hfm).same (hf'.collects g hgm) (NntpFileBase.key_inj hkey)

/-! ### `additem` -/

section Step
variable {f : NntpFile} {p : NntpPart}

theorem Consistent.mono {hs' : Multiset NntpHeader} (hc : Consistent hs) (hle : hs' ≤ hs) : Consistent hs' := fun a ha b hb =>
  hc a (Multiset.mem_of_le hle ha) b (Multiset.mem_of_le hle hb)

theorem Consistent.of_cons (hc : Consistent (h ::ₘ hs)) : Consistent hs := hc.mono (Multiset.le_cons_self hs h)

/-- The headers of other files change nothing. -/
theorem collects_add_of_ne {new : Multiset NntpHeader} (hf : f.Collects hs)
    (hne : ∀ a ∈ new, a.toNntpFileBase ≠ f.toNntpFileBase) : f.Collects (new + hs) := by
  refine ⟨hf.wellFormed, fun a ha hkey => ?_, fun p hp => ?_⟩
  · rcases Multiset.mem_add.mp ha with ha | ha
    · exact absurd hkey (hne a ha)
    · exact hf.parts a ha hkey
  · rw [Multiset.filter_add, Multiset.filter_eq_nil.mpr fun a ha hand => hne a ha hand.1, zero_add]
    exact hf.articles p hp

theorem collects_cons_of_ne (hf : f.Collects hs) (hne : h.toNntpFileBase ≠ f.toNntpFileBase) : f.Collects (h ::ₘ hs) := by
  rw [← Multiset.singleton_add]
  refine collects_add_of_ne hf fun a ha => ?_
  rw [Multiset.mem_singleton.mp ha]
  exact hne

/-- A part of another number keeps its articles. -/
theorem articles_add_of_ne {new : Multiset NntpHeader} (hf : f.Collects hs) (hp : p ∈ f.parts)
    (hne : ∀ a ∈ new, a.partnum ≠ p.partnum) : (p.articles : Multiset NntpServerArticle) = ((new + hs).filter fun h =>
      h.toNntpFileBase = f.toNntpFileBase ∧ h.partnum = p.partnum).map .ofHeader := by
  rw [Multiset.filter_add, Multiset.filter_eq_nil.mpr fun a ha hand => hne a ha hand.2, zero_add]
  exact hf.articles p hp

/-- The headers are those of articles of the part. -/
structure HeadersOf (f : NntpFile) (p : NntpPart) (sas : List NntpServerArticle) (new : Multiset NntpHeader) : Prop where
  key : ∀ a ∈ new, a.toNntpFileBase = f.toNntpFileBase
  partnum : ∀ a ∈ new, a.partnum = p.partnum
  messageid : ∀ a ∈ new, a.messageid = p.messageid
  articles : (sas : Multiset NntpServerArticle) = new.map .ofHeader

theorem HeadersOf.filter {sas : List NntpServerArticle} {new : Multiset NntpHeader} (hnew : HeadersOf f p sas new) :
    new.filter (fun a => a.toNntpFileBase = f.toNntpFileBase ∧ a.partnum = p.partnum) = new :=
  Multiset.filter_eq_self.mpr fun a ha => ⟨hnew.key a ha, hnew.partnum a ha⟩

/-- Articles for a part that the file has. -/
theorem collects_pushArticles {sas : List NntpServerArticle} {new : Multiset NntpHeader} (hf : f.Collects hs)
    (hp : NntpFileParts.part f.parts p.partnum = some p) (hnew : HeadersOf f p sas new) :
    (f.pushArticles p sas).Collects (new + hs) := by
  obtain ⟨before, after, hparts, hparts'⟩ := @pushArticles_parts _ _ _ sas hp
  have hmem : ∀ q ∈ (f.pushArticles p sas).parts, q = { p with articles := p.articles ++ sas } ∨
      q ∈ f.parts ∧ p.partnum ≠ q.partnum := by
    have hinc := hf.wellFormed.increasing
    rw [hparts] at hinc
    obtain ⟨-, hafter, hbefore⟩ := List.pairwise_append.mp hinc
    intro q hq
    rw [hparts'] at hq
    rw [hparts]
    rcases List.mem_append.mp hq with hq | hq
    · exact Or.inr ⟨by simp [hq], (hbefore q hq p List.mem_cons_self).ne'⟩
    · rcases List.mem_cons.mp hq with rfl | hq
      · exact Or.inl rfl
      · exact Or.inr ⟨by simp [hq], ((List.pairwise_cons.mp hafter).1 q hq).ne⟩
  have hpmem : p ∈ f.parts := by simp [hparts]
  have hpmem' : { p with articles := p.articles ++ sas } ∈ (f.pushArticles p sas).parts := by simp [hparts']
  refine ⟨wellFormed_pushArticles hf.wellFormed hp, fun a ha hakey => ?_, fun q hq => ?_⟩
  · rcases Multiset.mem_add.mp ha with ha | ha
    · exact ⟨_, hpmem', (hnew.partnum a ha).symm, (hnew.messageid a ha).symm⟩
    · obtain ⟨q, hq, hqnum, hqmid⟩ := hf.parts a ha hakey
      rw [hparts] at hq
      rcases List.mem_append.mp hq with hq | hq
      · exact ⟨q, by simp [hparts', hq], hqnum, hqmid⟩
      · rcases List.mem_cons.mp hq with rfl | hq
        · exact ⟨_, hpmem', hqnum, hqmid⟩
        · exact ⟨q, by simp [hparts', hq], hqnum, hqmid⟩
  · rcases hmem q hq with rfl | ⟨hq, hne⟩
    · have hall := hf.articles p hpmem
      have hown : new.filter (fun a => a.toNntpFileBase = f.toNntpFileBase ∧ a.partnum = p.partnum) = new := hnew.filter
      show ((p.articles ++ sas : List NntpServerArticle) : Multiset NntpServerArticle) = ((new + hs).filter fun a =>
        a.toNntpFileBase = f.toNntpFileBase ∧ a.partnum = p.partnum).map .ofHeader
      rw [Multiset.filter_add, Multiset.map_add, hown, ← hall, ← hnew.articles, add_comm]
      rfl
    · have hother := articles_add_of_ne hf hq fun a ha hnum => hne ((hnew.partnum a ha).symm.trans hnum)
      exact hother

/-- A part that the file does not have. -/
theorem collects_addpart {new : Multiset NntpHeader} (hf : f.Collects hs) (hp : NntpFileParts.part f.parts p.partnum = none)
    (hsome : p.articles ≠ []) (hnew : HeadersOf f p p.articles new) : (f.addpart p).Collects (new + hs) := by
  have hwf := hf.wellFormed
  have hnone := (NntpFileParts.part_eq_none_iff hwf.increasing).mp hp
  have hmem : ∀ q, q ∈ (f.addpart p).parts ↔ q = p ∨ q ∈ f.parts := fun q =>
    NntpFileParts.mem_addpart hwf.increasing.ascending
  refine ⟨wellFormed_addpart hwf.increasing hwf.articles hwf.haveNum hsome hnone, fun a ha hakey => ?_, fun q hq => ?_⟩
  · rcases Multiset.mem_add.mp ha with ha | ha
    · exact ⟨p, (hmem p).mpr (Or.inl rfl), (hnew.partnum a ha).symm, (hnew.messageid a ha).symm⟩
    · obtain ⟨q, hq, hqnum, hqmid⟩ := hf.parts a ha hakey
      exact ⟨q, (hmem q).mpr (Or.inr hq), hqnum, hqmid⟩
  · rcases (hmem q).mp hq with rfl | hq
    · -- no header of the key has had this number
      have hnil : (hs.filter fun a => a.toNntpFileBase = f.toNntpFileBase ∧ a.partnum = q.partnum) = 0 := by
        refine Multiset.filter_eq_nil.mpr fun a ha hand => ?_
        obtain ⟨q', hq', hqnum, -⟩ := hf.parts a ha hand.1
        exact hnone q' hq' (hqnum.trans hand.2)
      have hown : new.filter (fun a => a.toNntpFileBase = f.toNntpFileBase ∧ a.partnum = q.partnum) = new := hnew.filter
      show (q.articles : Multiset NntpServerArticle) = ((new + hs).filter fun a =>
        a.toNntpFileBase = f.toNntpFileBase ∧ a.partnum = q.partnum).map .ofHeader
      rw [Multiset.filter_add, hnil, add_zero, hown, hnew.articles]
    · have hother := articles_add_of_ne hf hq fun a ha hnum => hnone q hq (hnum.symm.trans (hnew.partnum a ha))
      exact hother

theorem headersOf_singleton (hkey : f.toNntpFileBase = h.toNntpFileBase) (hnum : p.partnum = h.partnum)
    (hmid : p.messageid = h.messageid) : HeadersOf f p [.ofHeader h] {h} := by
  refine ⟨?_, ?_, ?_, rfl⟩
  · rintro a ha
    rw [Multiset.mem_singleton.mp ha, hkey]
  · rintro a ha
    rw [Multiset.mem_singleton.mp ha, hnum]
  · rintro a ha
    rw [Multiset.mem_singleton.mp ha, hmid]

theorem collects_withArticle (hf : f.Collects hs) (hkey : f.toNntpFileBase = h.toNntpFileBase)
    (hp : NntpFileParts.part f.parts h.partnum = some p) (hmid : p.messageid = h.messageid) :
    (withArticle h f p).Collects (h ::ₘ hs) := by
  have hnum := (NntpFileParts.part_eq_some hp).2
  rw [withArticle_eq hp, ← Multiset.singleton_add]
  exact collects_pushArticles hf (hnum ▸ hp) (headersOf_singleton hkey hnum hmid)

/-- A file collects its headers whatever its date is. -/
theorem collects_update {update : Int64} (hf : f.Collects hs) : { f with update }.Collects hs :=
  ⟨⟨hf.wellFormed.nonempty, hf.wellFormed.increasing, hf.wellFormed.articles, hf.wellFormed.haveNum⟩, hf.parts, hf.articles⟩

theorem collects_addnewpart (hf : f.Collects hs) (hkey : f.toNntpFileBase = h.toNntpFileBase)
    (hp : NntpFileParts.part f.parts h.partnum = none) : (f.addnewpart (.ofHeader h) now).Collects (h ::ₘ hs) := by
  rw [← Multiset.singleton_add]
  exact collects_addpart (collects_update hf) hp (by simp) (headersOf_singleton (by exact hkey) rfl rfl)

theorem collects_newFile (hnone : ∀ a ∈ hs, a.toNntpFileBase ≠ h.toNntpFileBase) : (newFile h now).Collects (h ::ₘ hs) := by
  have hnil : (hs.filter fun a => a.toNntpFileBase = h.toNntpFileBase ∧ a.partnum = h.partnum) = 0 :=
    Multiset.filter_eq_nil.mpr fun a ha hand => hnone a ha hand.1
  refine ⟨wellFormed_newFile, fun a ha hakey => ?_, fun q hq => ?_⟩
  · rcases Multiset.mem_cons.mp ha with rfl | ha
    · exact ⟨_, List.mem_singleton.mpr rfl, rfl, rfl⟩
    · exact absurd hakey (hnone a ha)
  · obtain rfl := List.mem_singleton.mp (newFile_parts ▸ hq)
    have hall := Multiset.filter_cons_of_pos hs
      (p := fun a : NntpHeader => a.toNntpFileBase = h.toNntpFileBase ∧ a.partnum = h.partnum) ⟨rfl, rfl⟩
    rw [hnil] at hall
    refine Eq.trans ?_ (congrArg (Multiset.map NntpServerArticle.ofHeader) hall.symm)
    rfl

/-- The strict order of files whose keys have stayed. -/
theorem increasing_middle {pre post : List NntpFile} {f' : NntpFile} (hkey : f'.toNntpFileBase = f.toNntpFileBase)
    (hinc : (pre ++ f :: post).Pairwise fun f g => f.toNntpFileBase.lt g.toNntpFileBase = true) :
    (pre ++ f' :: post).Pairwise fun f g => f.toNntpFileBase.lt g.toNntpFileBase = true := by
  simp only [List.pairwise_append, List.pairwise_cons, List.forall_mem_cons, hkey] at hinc ⊢
  exact hinc

/-- A file that is changed for a header of its key, when the other files have other keys. -/
theorem filesOf_middle {pre post : List NntpFile} {f' : NntpFile} (hf : FilesOf hs (pre ++ f :: post))
    (hkey : f.toNntpFileBase = h.toNntpFileBase) (hkey' : f'.toNntpFileBase = f.toNntpFileBase)
    (hf' : f'.Collects (h ::ₘ hs)) : FilesOf (h ::ₘ hs) (pre ++ f' :: post) := by
  have hmem : f' ∈ pre ++ f' :: post := by simp
  refine ⟨increasing_middle hkey' hf.increasing, fun a ha => ?_, fun g hg => ?_⟩
  · rcases Multiset.mem_cons.mp ha with rfl | ha
    · exact ⟨f', hmem, hkey'.trans hkey⟩
    · obtain ⟨g, hg, hgkey⟩ := hf.keys a ha
      rcases List.mem_append.mp hg with hg | hg
      · exact ⟨g, by simp [hg], hgkey⟩
      · rcases List.mem_cons.mp hg with rfl | hg
        · exact ⟨f', hmem, hkey'.trans hgkey⟩
        · exact ⟨g, by simp [hg], hgkey⟩
  · obtain ⟨-, hpost, hpre⟩ := List.pairwise_append.mp hf.keys_increasing
    rcases List.mem_append.mp hg with hg | hg
    · refine collects_cons_of_ne (hf.collects g (by simp [hg])) fun heq => ?_
      exact (hpre g hg f List.mem_cons_self).ne (by rw [hkey, heq])
    · rcases List.mem_cons.mp hg with rfl | hg
      · exact hf'
      · refine collects_cons_of_ne (hf.collects g (by simp [hg])) fun heq => ?_
        exact ((List.pairwise_cons.mp hpost).1 g hg).ne (by rw [hkey, heq])

/-- With one message-id for each part number, no file conflicts. -/
theorem not_conflicts (hf : f.Collects hs) (hcons : Consistent (h ::ₘ hs)) (hkey : f.toNntpFileBase = h.toNntpFileBase) :
    ¬Conflicts h f := by
  rintro ⟨p, hp, hmid⟩
  obtain ⟨hpmem, hpnum⟩ := (NntpFileParts.part_eq_some_iff hf.wellFormed.increasing).mp hp
  obtain ⟨a, ha, hakey, hanum⟩ := hf.exists_header hpmem
  refine hmid ((hf.messageid hpmem ha hakey hanum).trans ?_)
  exact hcons a (Multiset.mem_cons_of_mem ha) h (Multiset.mem_cons_self h hs) (hakey.trans hkey) (hanum.trans hpnum)

/-- One header more. -/
theorem FilesOf.added {newpart : Bool} (hf : FilesOf hs files) (hcons : Consistent (h ::ₘ hs))
    (ha : Added h now files files' newpart) : FilesOf (h ::ₘ hs) files' := by
  cases ha with
  | @article pre post f p key part mid =>
    exact filesOf_middle hf key rfl (collects_withArticle (hf.collects f (by simp)) key part mid)
  | @part pre post f key part => exact filesOf_middle hf key rfl (collects_addnewpart (hf.collects f (by simp)) key part)
  | @file pre post before after conflicts =>
    have hne : ∀ f ∈ pre ++ post, f.toNntpFileBase ≠ h.toNntpFileBase := fun f hfm hkey =>
      not_conflicts (hf.collects f hfm) hcons hkey (conflicts f hfm hkey)
    have hnone : ∀ a ∈ hs, a.toNntpFileBase ≠ h.toNntpFileBase := fun a ham hakey => by
      obtain ⟨f, hfm, hfkey⟩ := hf.keys a ham
      exact hne f hfm (hfkey.trans hakey)
    refine ⟨?_, fun a ham => ?_, fun g hg => ?_⟩
    · obtain ⟨hpre, hpost, hmid⟩ := List.pairwise_append.mp hf.increasing
      refine List.pairwise_append.mpr ⟨hpre, List.pairwise_cons.mpr ⟨after, hpost⟩, fun f hfm => ?_⟩
      refine List.forall_mem_cons.mpr ⟨?_, hmid f hfm⟩
      by_contra hlt
      exact hne f (by simp [hfm]) (NntpFileBase.eq_of_not_lt hlt (before f hfm))
    · rcases Multiset.mem_cons.mp ham with rfl | ham
      · exact ⟨newFile a now, by simp, rfl⟩
      · obtain ⟨g, hg, hgkey⟩ := hf.keys a ham
        rcases List.mem_append.mp hg with hg | hg
        · exact ⟨g, by simp [hg], hgkey⟩
        · exact ⟨g, by simp [hg], hgkey⟩
    · have hold : g ∈ pre ++ post → g.Collects (h ::ₘ hs) := fun hg =>
        collects_cons_of_ne (hf.collects g hg) fun heq => hne g hg heq.symm
      rcases List.mem_append.mp hg with hg | hg
      · exact hold (by simp [hg])
      · rcases List.mem_cons.mp hg with rfl | hg
        · exact collects_newFile hnone
        · exact hold (by simp [hg])

end Step

/-! ### Lists of headers -/

/-- The headers are added to an empty cache, each at a time of its own. -/
def addAll (hs : List (NntpHeader × Int64)) : NntpCache := hs.foldl (fun c h => (c.additem h.1 h.2).1) ∅

/-- The headers without the times. -/
abbrev headers (hs : List (NntpHeader × Int64)) : List NntpHeader := hs.map Prod.fst

/-- What the server's headers make of its interval and count. -/
def serverInfoOf (hs : List NntpHeader) (serverid : UInt64) : NntpServerInfo :=
  (hs.filter fun h => h.serverid = serverid).foldl (fun si h => si.addArticle h.articlenum) { serverid }

/-- The same cache, up to the order of articles, the dates, and the files' `tailoff`. -/
structure Same (c c' : NntpCache) : Prop where
  files : List.Forall₂ (fun f g => f.Same g ∧ f.flags = g.flags) c.files c'.files
  totalnum : c.totalnum = c'.totalnum
  serverInfo : c.serverInfo = c'.serverInfo
  group : c.group = c'.group
  saveit : c.saveit = c'.saveit
  fileread : c.fileread = c'.fileread

variable {hl hl' : List (NntpHeader × Int64)}

@[simp] theorem addAll_append {x : NntpHeader × Int64} : addAll (hl ++ [x]) = ((addAll hl).additem x.1 x.2).1 := by
  simp [addAll]

theorem headers_append {x : NntpHeader × Int64} :
    (headers (hl ++ [x]) : Multiset NntpHeader) = x.1 ::ₘ (headers hl : Multiset NntpHeader) := by
  rw [headers, List.map_append]
  exact Multiset.coe_eq_coe.mpr (List.perm_append_singleton _ _)

theorem addAll_inv (hl : List (NntpHeader × Int64)) : (addAll hl).Inv :=
  List.foldlRecOn hl _ inv_empty fun _ hc _ _ => hc.additem

theorem addAll_filesOf (hl : List (NntpHeader × Int64)) (hcons : Consistent (headers hl)) :
    FilesOf (headers hl) (addAll hl).files := by
  induction hl using List.reverseRecOn with
  | nil => exact ⟨List.Pairwise.nil, by simp, by simp [addAll, EmptyCollection.emptyCollection]⟩
  | append_singleton hl x ih =>
    rw [headers_append] at hcons ⊢
    obtain ⟨newpart, ha, -⟩ := @additem_added (addAll hl) x.1 x.2 (addAll_inv hl).sorted
    rw [addAll_append]
    exact (ih hcons.of_cons).added hcons ha

/-- No header is lost, and none is taken twice. -/
theorem articles_addAll (hl : List (NntpHeader × Int64)) :
    (articles (addAll hl).files).Perm ((headers hl).map NntpServerArticle.ofHeader) := by
  induction hl using List.reverseRecOn with
  | nil => rfl
  | append_singleton hl x ih =>
    obtain ⟨newpart, ha, -⟩ := @additem_added (addAll hl) x.1 x.2 (addAll_inv hl).sorted
    rw [addAll_append, headers, List.map_append, List.map_append]
    refine (ha.articles (addAll_inv hl).files).perm.trans ?_
    exact (ih.cons _).trans (List.perm_append_singleton _ _).symm

/-! ### The servers -/

theorem addArticle_comm {si : NntpServerInfo} {n m : UInt64} :
    (si.addArticle n).addArticle m = (si.addArticle m).addArticle n := by
  have hhigh : ∀ a b : UInt64, (if a < b then b else a) = max a b := fun a b => by grind
  have hlow : ∀ a b : UInt64, (if b < a then b else a) = min a b := fun a b => by grind
  unfold NntpServerInfo.addArticle
  simp only [hhigh, hlow, max_right_comm, min_right_comm]

theorem serverInfoOf_perm {hs hs' : List NntpHeader} {serverid : UInt64} (h : hs.Perm hs') :
    serverInfoOf hs serverid = serverInfoOf hs' serverid := by
  have : RightCommutative fun (si : NntpServerInfo) (h : NntpHeader) => si.addArticle h.articlenum :=
    ⟨fun _ _ _ => addArticle_comm⟩
  exact (h.filter _).foldl_eq _

theorem servinfo_addAll (hl : List (NntpHeader × Int64)) (serverid : UInt64) :
    (addAll hl).servinfo serverid = serverInfoOf (headers hl) serverid := by
  induction hl using List.reverseRecOn with
  | nil => rfl
  | append_singleton hl x ih =>
    rw [addAll_append, servinfo_additem, headers, List.map_append]
    unfold serverInfoOf at ih ⊢
    rw [List.filter_append, List.foldl_append]
    by_cases hx : serverid = x.1.serverid
    · rw [if_pos hx, ← hx, ih]
      simp [hx]
    · rw [if_neg hx, ih]
      simp [Ne.symm hx]

theorem find?_serverInfo_addAll (hl : List (NntpHeader × Int64)) (serverid : UInt64) :
    (addAll hl).serverInfo.find? serverid =
      if ∃ h ∈ headers hl, h.serverid = serverid then some (serverid, serverInfoOf (headers hl) serverid) else none := by
  induction hl using List.reverseRecOn with
  | nil => rfl
  | append_singleton hl x ih =>
    have hinfo := servinfo_addAll (hl ++ [x]) serverid
    rw [addAll_append, servinfo_additem] at hinfo
    rw [addAll_append, serverInfo_additem, SortedMap.find?_assign]
    by_cases hx : serverid = x.1.serverid
    · rw [if_pos hx] at hinfo
      rw [if_pos hx, if_pos ⟨x.1, by simp, hx.symm⟩, hinfo, ← hx]
    · rw [if_neg hx, servinfo_addAll] at hinfo
      have hold : (∃ h ∈ headers (hl ++ [x]), h.serverid = serverid) ↔ ∃ h ∈ headers hl, h.serverid = serverid := by
        simp only [headers, List.map_append, List.mem_append, or_and_right, exists_or]
        simp [Ne.symm hx]
      rw [if_neg hx, ih, hinfo]
      simp only [hold]

/-! ### The order -/

theorem numParts_same (h : List.Forall₂ NntpFile.Same files files') : numParts files = numParts files' := by
  induction h with
  | nil => rfl
  | cons hf _ ih => rw [numParts_cons, numParts_cons, ih, hf.parts.length_eq]

theorem addAll_flags (hl : List (NntpHeader × Int64)) : ∀ f ∈ (addAll hl).files, f.flags = 0 := by
  induction hl using List.reverseRecOn with
  | nil => simp [addAll, EmptyCollection.emptyCollection]
  | append_singleton hl x ih =>
    obtain ⟨newpart, ha, -⟩ := @additem_added (addAll hl) x.1 x.2 (addAll_inv hl).sorted
    rw [addAll_append]
    generalize (addAll hl).files = files, ((addAll hl).additem x.1 x.2).1.files = files' at ih ha
    cases ha with
    | article key part mid | part key part =>
      simp only [List.forall_mem_append, List.forall_mem_cons] at ih ⊢
      exact ih
    | file before after conflicts =>
      simp only [List.forall_mem_append, List.forall_mem_cons] at ih ⊢
      exact ⟨ih.1, rfl, ih.2⟩

/-- A file has the `tailoff` of the first header of its key. -/
theorem addAll_tailoff (hl : List (NntpHeader × Int64)) (hcons : Consistent (headers hl)) : ∀ f ∈ (addAll hl).files,
    ((headers hl).find? fun h => h.toNntpFileBase = f.toNntpFileBase).map (·.tailoff) = some f.tailoff := by
  induction hl using List.reverseRecOn with
  | nil => simp [addAll, EmptyCollection.emptyCollection]
  | append_singleton hl x ih =>
    obtain ⟨newpart, ha, -⟩ := @additem_added (addAll hl) x.1 x.2 (addAll_inv hl).sorted
    rw [headers_append] at hcons
    have hfiles := addAll_filesOf hl hcons.of_cons
    have hold : ∀ f ∈ (addAll hl).files, ((headers (hl ++ [x])).find? fun h => h.toNntpFileBase = f.toNntpFileBase).map
        (·.tailoff) = some f.tailoff := fun f hf => by
      rw [headers, List.map_append, List.find?_append, Option.map_or, ih hcons.of_cons f hf, Option.some_or]
    rw [addAll_append]
    generalize (addAll hl).files = files, ((addAll hl).additem x.1 x.2).1.files = files' at hold ha hfiles
    cases ha with
    | article key part mid | part key part =>
      simp only [List.forall_mem_append, List.forall_mem_cons] at hold ⊢
      exact hold
    | @file pre post before after conflicts =>
      have hnone : ∀ a ∈ headers hl, a.toNntpFileBase ≠ x.1.toNntpFileBase := fun a ham hakey => by
        obtain ⟨f, hfm, hfkey⟩ := hfiles.keys a ham
        have hkey := hfkey.trans hakey
        exact not_conflicts (hfiles.collects f hfm) hcons hkey (conflicts f hfm hkey)
      simp only [List.forall_mem_append, List.forall_mem_cons] at hold ⊢
      refine ⟨hold.1, ?_, hold.2⟩
      have hfind : (headers hl).find? (fun h => h.toNntpFileBase = x.1.toNntpFileBase) = none :=
        List.find?_eq_none.mpr fun a ham => by simpa using hnone a ham
      rw [headers, List.map_append, List.find?_append]
      show ((List.find? (fun h => h.toNntpFileBase = x.1.toNntpFileBase) (headers hl)).or _).map _ = some x.1.tailoff
      rw [hfind, Option.none_or]
      show ((List.find? (fun h => h.toNntpFileBase = x.1.toNntpFileBase) [x.1])).map _ = some x.1.tailoff
      simp

theorem addAll_group (hl : List (NntpHeader × Int64)) : (addAll hl).group = [] ∧ (addAll hl).fileread = -1 ∧
    (addAll hl).saveit = !hl.isEmpty := by
  induction hl using List.reverseRecOn with
  | nil => exact ⟨rfl, rfl, rfl⟩
  | append_singleton hl x ih =>
    rw [addAll_append]
    unfold additem
    dsimp only
    split
    · exact ⟨ih.1, ih.2.1, by simp⟩
    · exact ⟨ih.1, ih.2.1, by simp⟩

/-- Headers in any order give the same cache: one file for each key with a part for each of its part numbers, where
    each header has its one article, and the `tailoff` of the file's first header. -/
theorem addAll_perm (hl hl' : List (NntpHeader × Int64)) (hperm : (headers hl).Perm (headers hl'))
    (hcons : Consistent (headers hl)) : (addAll hl).Same (addAll hl') ∧ FilesOf (headers hl) (addAll hl).files ∧
      (articles (addAll hl).files).Perm ((headers hl).map NntpServerArticle.ofHeader) ∧ ∀ f ∈ (addAll hl).files,
        ((headers hl).find? fun h => h.toNntpFileBase = f.toNntpFileBase).map (·.tailoff) = some f.tailoff := by
  have hmult : (headers hl : Multiset NntpHeader) = headers hl' := Multiset.coe_eq_coe.mpr hperm
  have hfiles := addAll_filesOf hl hcons
  have hfiles' := addAll_filesOf hl' (hmult ▸ hcons)
  rw [← hmult] at hfiles'
  have hsame := hfiles.same hfiles'
  obtain ⟨hgroup, hread, hsaveit⟩ := addAll_group hl
  obtain ⟨hgroup', hread', hsaveit'⟩ := addAll_group hl'
  refine ⟨⟨?_, ?_, ?_, hgroup.trans hgroup'.symm, ?_, hread.trans hread'.symm⟩, hfiles, articles_addAll hl,
    addAll_tailoff hl hcons⟩
  · have hflags := addAll_flags hl
    have hflags' := addAll_flags hl'
    rw [List.forall₂_iff_zip] at hsame ⊢
    refine ⟨hsame.1, fun hfg => ⟨hsame.2 hfg, ?_⟩⟩
    rw [hflags _ (List.of_mem_zip hfg).1, hflags' _ (List.of_mem_zip hfg).2]
  · rw [(addAll_inv hl).totalnum, (addAll_inv hl').totalnum, numParts_same hsame]
  · refine SortedMap.ext_find? fun s => ?_
    rw [find?_serverInfo_addAll, find?_serverInfo_addAll, serverInfoOf_perm hperm]
    simp only [hperm.mem_iff]
  · have hlength := hperm.length_eq
    rw [List.length_map, List.length_map] at hlength
    rw [hsaveit, hsaveit']
    cases hl with
    | nil => rw [List.length_eq_zero_iff.mp hlength.symm]
    | cons x hl =>
      cases hl' with
      | nil => cases hlength
      | cons x' hl' => rfl

/-- The first and the tenth of ten parts, as their subjects give them. -/
def partOfTen (serverid articlenum : UInt64) (num : Text) : NntpHeader :=
  NntpHeader.filled serverid [] ("file.bin (".toList ++ num ++ "/10)".toList) [] articlenum 0 0 0 num []

theorem addAll_perm_sample : (addAll [(partOfTen 1 1 ['1'], 0), (partOfTen 1 2 ['1', '0'], 0)]).Same
    (addAll [(partOfTen 1 2 ['1', '0'], 5), (partOfTen 1 1 ['1'], 5)]) := by
  refine (addAll_perm [(partOfTen 1 1 ['1'], 0), (partOfTen 1 2 ['1', '0'], 0)]
    [(partOfTen 1 2 ['1', '0'], 5), (partOfTen 1 1 ['1'], 5)] (List.Perm.swap _ _ _) ?_).1
  unfold Consistent
  decide

/-- The closing bracket of `(10/10)` stands behind that of `(1/10)`, so the two orders give different files. -/
theorem addAll_tailoff_differs : ¬∀ hl hl' : List (NntpHeader × Int64),
    ((headers hl).map fun h => (h.serverid, h.articlenum)).Nodup → Consistent (headers hl) →
      (headers hl).Perm (headers hl') →
        List.Forall₂ (fun f g => f.Same g ∧ f.flags = g.flags ∧ f.tailoff = g.tailoff)
          (addAll hl).files (addAll hl').files := by
  intro h
  have hsame := h [(partOfTen 1 1 ['1'], 0), (partOfTen 1 2 ['1', '0'], 0)]
    [(partOfTen 1 2 ['1', '0'], 0), (partOfTen 1 1 ['1'], 0)]
    (by decide) (by unfold Consistent; decide) (List.Perm.swap _ _ _)
  have htail : (addAll [(partOfTen 1 1 ['1'], 0), (partOfTen 1 2 ['1', '0'], 0)]).files.map (·.tailoff) =
      (addAll [(partOfTen 1 2 ['1', '0'], 0), (partOfTen 1 1 ['1'], 0)]).files.map (·.tailoff) := by
    have := List.forall₂_map_left_iff.mpr (List.forall₂_map_right_iff.mpr (hsame.imp fun _ _ h => h.2.2))
    exact List.forall₂_eq_eq_eq ▸ this
  exact absurd htail (by decide)

end NntpCache
end Nget

import Nget.Metagroup
import Nget.Theorems.AddOrder

/-! `mergefile` moves the articles of one file into another: none is lost, and the parts that stay are those whose
    number is taken by another message (`mergeParts_articles`). Without such parts it does what the headers of the
    articles would have done (`mergefile_collects`). -/

namespace Nget

namespace NntpFileParts
variable {parts : List NntpPart} {p q : NntpPart}

theorem part_addpart (h : Ascending parts) : part (addpart parts p) p.partnum = some p := by
  unfold part
  rw [lowerBound_addpart h, getElem?_addpart h]
  simp

/-- A part that was added is replaced as if the other had been added. -/
theorem set_addpart (h : Ascending parts) (hnum : q.partnum = p.partnum) :
    (addpart parts p).set (lowerBound (addpart parts p) p.partnum) q = addpart parts q := by
  rw [lowerBound_addpart h, List.set_eq_modify, modify_addpart h (g := fun _ => q) hnum]

end NntpFileParts

namespace NntpFile
variable {f g : NntpFile} {p : NntpPart}

/-- A part stays, or its articles go to the part of its number, or it goes as it is. -/
theorem mergePart_cases (hf : NntpFileParts.Increasing f.parts) :
    (∃ mp, NntpFileParts.part f.parts p.partnum = some mp ∧ mp.messageid ≠ p.messageid ∧ f.mergePart p = none) ∨
      (∃ mp, NntpFileParts.part f.parts p.partnum = some mp ∧ mp.messageid = p.messageid ∧
        f.mergePart p = some (f.pushArticles mp p.articles)) ∨
      NntpFileParts.part f.parts p.partnum = none ∧ f.mergePart p = some (f.addpart p) := by
  unfold mergePart
  cases hp : NntpFileParts.part f.parts p.partnum with
  | none =>
    refine Or.inr (Or.inr ⟨rfl, ?_⟩)
    have hpart := @NntpFileParts.part_addpart _ { p with articles := [] } hf.ascending
    have hset := @NntpFileParts.set_addpart _ { p with articles := [] } p hf.ascending rfl
    dsimp only at hpart hset ⊢
    rw [addpart_parts, hpart, Option.map_some, pushArticles]
    dsimp only
    rw [addpart_parts, List.nil_append, hset]
    rfl
  | some mp =>
    by_cases hmid : mp.messageid = p.messageid
    · exact Or.inr (Or.inl ⟨mp, rfl, hmid, if_pos hmid⟩)
    · exact Or.inl ⟨mp, rfl, hmid, if_neg hmid⟩

theorem articles_pushArticles {partnum : Int32} {mp : NntpPart} {sas : List NntpServerArticle}
    (hp : NntpFileParts.part f.parts partnum = some mp) : (f.pushArticles mp sas).articles.Perm (sas ++ f.articles) := by
  obtain ⟨before, after, hparts, hparts'⟩ := @NntpCache.pushArticles_parts _ _ _ sas hp
  unfold articles
  rw [hparts, hparts']
  simp only [List.flatMap_append, List.flatMap_cons, ← Multiset.coe_eq_coe, ← Multiset.coe_add]
  ac_rfl

theorem articles_addpart (hf : NntpFileParts.Increasing f.parts) : (f.addpart p).articles.Perm (p.articles ++ f.articles) := by
  have hperm := (NntpFileParts.addpart_perm (p := p) hf.ascending).flatMap_right fun q => q.articles
  rwa [List.flatMap_cons] at hperm

theorem mergePart_toNntpFileBase (hg : f.mergePart p = some g) : g.toNntpFileBase = f.toNntpFileBase := by
  unfold mergePart at hg
  split at hg
  · obtain ⟨mp, -, rfl⟩ := Option.map_eq_some_iff.mp hg
    rfl
  · split at hg
    · cases hg
      rfl
    · cases hg

theorem mergePart_increasing (hf : NntpFileParts.Increasing f.parts) (hg : f.mergePart p = some g) :
    NntpFileParts.Increasing g.parts := by
  rcases @mergePart_cases f p hf with ⟨mp, -, -, hnone⟩ | ⟨mp, hp, -, hsome⟩ | ⟨hp, hsome⟩
  · rw [hnone] at hg
    cases hg
  · rw [hsome] at hg
    cases hg
    obtain ⟨before, after, hparts, hparts'⟩ := @NntpCache.pushArticles_parts _ _ _ p.articles hp
    rw [hparts] at hf
    rw [hparts']
    unfold NntpFileParts.Increasing at hf ⊢
    simpa [List.pairwise_append] using hf
  · rw [hsome] at hg
    cases hg
    exact NntpFileParts.increasing_addpart hf ((NntpFileParts.part_eq_none_iff hf).mp hp)

theorem mergePart_articles (hf : NntpFileParts.Increasing f.parts) (hg : f.mergePart p = some g) :
    g.articles.Perm (p.articles ++ f.articles) := by
  rcases @mergePart_cases f p hf with ⟨mp, -, -, hnone⟩ | ⟨mp, hp, -, hsome⟩ | ⟨hp, hsome⟩
  · rw [hnone] at hg
    cases hg
  · rw [hsome] at hg
    cases hg
    exact articles_pushArticles hp
  · rw [hsome] at hg
    cases hg
    exact articles_addpart hf

/-! ### All parts -/

/-- Merging keeps the key of the file, whatever its parts are. -/
theorem mergeParts_toNntpFileBase : ∀ (ps : List NntpPart) (f : NntpFile), (f.mergeParts ps).1.toNntpFileBase = f.toNntpFileBase
  | [], _ => rfl
  | p :: ps, f => by
    unfold mergeParts
    split
    · next g hg => exact (mergeParts_toNntpFileBase ps g).trans (mergePart_toNntpFileBase hg)
    · exact mergeParts_toNntpFileBase ps f

/-- The parts that stay are some of the file's. -/
theorem mergeParts_sublist : ∀ (ps : List NntpPart) (f : NntpFile), (f.mergeParts ps).2.Sublist ps
  | [], _ => List.Sublist.refl _
  | p :: ps, f => by
    unfold mergeParts
    split
    · exact (mergeParts_sublist ps _).cons p
    · exact (mergeParts_sublist ps f).cons_cons p

/-- Every article is in the file or stays. -/
theorem mergeParts_articles : ∀ (ps : List NntpPart) (f : NntpFile), NntpFileParts.Increasing f.parts →
    NntpFileParts.Increasing (f.mergeParts ps).1.parts ∧
      ((f.mergeParts ps).1.articles ++ (f.mergeParts ps).2.flatMap (·.articles)).Perm (f.articles ++ ps.flatMap (·.articles))
  | [], f, hf => ⟨hf, by simp [mergeParts]⟩
  | p :: ps, f, hf => by
    unfold mergeParts
    cases hg : f.mergePart p with
    | none =>
      obtain ⟨hinc, hperm⟩ := mergeParts_articles ps f hf
      refine ⟨hinc, ?_⟩
      simp only [List.flatMap_cons, ← Multiset.coe_eq_coe, ← Multiset.coe_add] at hperm ⊢
      rw [add_left_comm, hperm, add_left_comm]
    | some g =>
      have harticles := mergePart_articles hf hg
      obtain ⟨hinc, hperm⟩ := mergeParts_articles ps g (mergePart_increasing hf hg)
      refine ⟨hinc, hperm.trans ?_⟩
      simp only [List.flatMap_cons, ← Multiset.coe_eq_coe, ← Multiset.coe_add] at harticles ⊢
      rw [harticles]
      ac_rfl

theorem mergefile_toNntpFileBase : (f.mergefile g).1.toNntpFileBase = f.toNntpFileBase := mergeParts_toNntpFileBase _ _

theorem mergefile_sublist : (f.mergefile g).2.parts.Sublist g.parts := mergeParts_sublist _ _

theorem mergefile_articles (hf : NntpFileParts.Increasing f.parts) : NntpFileParts.Increasing (f.mergefile g).1.parts ∧
    ((f.mergefile g).1.articles ++ (f.mergefile g).2.articles).Perm (f.articles ++ g.articles) :=
  mergeParts_articles g.parts { f with update := if f.update < g.update then g.update else f.update } hf

/-! ### As adding headers -/

/-- The header that an article of the file's part comes from. -/
def headerOf (f : NntpFile) (p : NntpPart) (sa : NntpServerArticle) : NntpHeader :=
  { f.toNntpFileBase with
    serverid := sa.serverid, group := sa.group, partnum := p.partnum, tailoff := f.tailoff, articlenum := sa.articlenum,
    date := p.date, bytes := sa.bytes, lines := sa.lines, messageid := p.messageid }

def partHeaders (f : NntpFile) (p : NntpPart) : List NntpHeader := p.articles.map (headerOf f p)

/-- The headers of the file's articles. -/
def headers (f : NntpFile) : List NntpHeader := f.parts.flatMap (partHeaders f)

theorem map_ofHeader_partHeaders : (partHeaders f p).map NntpServerArticle.ofHeader = p.articles := by
  unfold partHeaders
  rw [List.map_map]
  exact List.map_id _

theorem partHeaders_headersOf (hkey : g.toNntpFileBase = f.toNntpFileBase) {q : NntpPart} (hnum : p.partnum = q.partnum)
    (hmid : p.messageid = q.messageid) : NntpCache.HeadersOf f q p.articles (partHeaders g p) := by
  refine ⟨fun a ha => ?_, fun a ha => ?_, fun a ha => ?_, ?_⟩
  · obtain ⟨sa, -, rfl⟩ := List.mem_map.mp ha
    exact hkey
  · obtain ⟨sa, -, rfl⟩ := List.mem_map.mp ha
    exact hnum
  · obtain ⟨sa, -, rfl⟩ := List.mem_map.mp ha
    exact hmid
  · exact congrArg _ map_ofHeader_partHeaders.symm

theorem headers_key {h : NntpHeader} (hh : h ∈ headers f) : h.toNntpFileBase = f.toNntpFileBase := by
  obtain ⟨p, -, hh⟩ := List.mem_flatMap.mp hh
  obtain ⟨sa, -, rfl⟩ := List.mem_map.mp hh
  rfl

/-- A file collects the headers of its articles. -/
theorem WellFormed.collects (hf : f.WellFormed) : f.Collects (headers f : Multiset NntpHeader) := by
  refine ⟨hf, fun a ha _ => ?_, fun p hp => ?_⟩
  · obtain ⟨p, hp, ha⟩ := List.mem_flatMap.mp (Multiset.mem_coe.mp ha)
    obtain ⟨sa, -, rfl⟩ := List.mem_map.mp ha
    exact ⟨p, hp, rfl, rfl⟩
  · obtain ⟨before, after, hparts⟩ := List.append_of_mem hp
    have hinc := hf.increasing
    rw [hparts] at hinc
    obtain ⟨-, hafter, hbefore⟩ := List.pairwise_append.mp hinc
    have hother : ∀ ps : List NntpPart, (∀ q ∈ ps, q.partnum ≠ p.partnum) → ((ps.flatMap (partHeaders f)).filter fun a =>
        a.toNntpFileBase = f.toNntpFileBase ∧ a.partnum = p.partnum) = [] := fun ps hne => by
      refine List.filter_eq_nil_iff.mpr fun a ha => ?_
      obtain ⟨q, hq, ha⟩ := List.mem_flatMap.mp ha
      obtain ⟨sa, -, rfl⟩ := List.mem_map.mp ha
      simp only [decide_eq_true_eq, not_and]
      exact fun _ => hne q hq
    have hown : ((partHeaders f p).filter fun a => a.toNntpFileBase = f.toNntpFileBase ∧ a.partnum = p.partnum) =
        partHeaders f p := by
      refine List.filter_eq_self.mpr fun a ha => ?_
      obtain ⟨sa, -, rfl⟩ := List.mem_map.mp ha
      simp [headerOf]
    rw [Multiset.filter_coe, Multiset.map_coe, headers, hparts, List.flatMap_append, List.flatMap_cons, List.filter_append,
      List.filter_append, hown, hother before fun q hq => (hbefore q hq p List.mem_cons_self).ne,
      hother after fun q hq => ((List.pairwise_cons.mp hafter).1 q hq).ne', List.nil_append, List.append_nil,
        map_ofHeader_partHeaders]

/-- Parts whose headers agree with those of the file are merged as their headers would be added. -/
theorem mergeParts_collects : ∀ (ps : List NntpPart) (f : NntpFile) (hs : Multiset NntpHeader), f.Collects hs →
    (∀ p ∈ ps, p.articles ≠ []) → g.toNntpFileBase = f.toNntpFileBase →
      NntpCache.Consistent (ps.flatMap (partHeaders g) + hs) →
        (f.mergeParts ps).2 = [] ∧ (f.mergeParts ps).1.Collects (ps.flatMap (partHeaders g) + hs)
  | [], f, hs, hf, _, _, _ => ⟨rfl, by simpa [mergeParts] using hf⟩
  | p :: ps, f, hs, hf, hsome, hkey, hcons => by
    obtain ⟨hp, hps⟩ := List.forall_mem_cons.mp hsome
    rw [List.flatMap_cons, ← Multiset.coe_add, add_assoc, add_left_comm] at hcons ⊢
    -- one turn adds the headers of the part
    obtain ⟨f', hmerge, hkey', hf'⟩ : ∃ f', f.mergePart p = some f' ∧ f'.toNntpFileBase = f.toNntpFileBase ∧
        f'.Collects (partHeaders g p + hs) := by
      rcases @mergePart_cases f p hf.wellFormed.increasing with ⟨mp, hmp, hmid, -⟩ | ⟨mp, hmp, hmid, hsome⟩ | ⟨hnone, hsome⟩
      · -- another message of the number would have a header that disagrees
        obtain ⟨hmem, hnum⟩ := (NntpFileParts.part_eq_some_iff hf.wellFormed.increasing).mp hmp
        obtain ⟨a, ha, hakey, hanum⟩ := hf.exists_header hmem
        obtain ⟨sa, hsa⟩ := List.exists_mem_of_ne_nil _ hp
        have hb : headerOf g p sa ∈ (partHeaders g p : Multiset NntpHeader) := List.mem_map_of_mem hsa
        refine absurd ((hf.messageid hmem ha hakey hanum).trans ?_) hmid
        exact hcons a (by simp [ha]) (headerOf g p sa) (Multiset.mem_add.mpr (Or.inr (Multiset.mem_add.mpr (Or.inl hb))))
          (hakey.trans hkey.symm) (hanum.trans hnum)
      · have hnum := (NntpFileParts.part_eq_some hmp).2
        exact ⟨_, hsome, rfl, NntpCache.collects_pushArticles hf (hnum ▸ hmp) (partHeaders_headersOf hkey hnum.symm hmid.symm)⟩
      · exact ⟨_, hsome, rfl, NntpCache.collects_addpart hf hnone hp (partHeaders_headersOf hkey rfl rfl)⟩
    unfold mergeParts
    rw [hmerge]
    exact mergeParts_collects ps f' _ hf' hps (hkey.trans hkey'.symm) hcons

/-- A file whose headers agree is merged as its headers would be added. -/
theorem mergefile_collects {hs : Multiset NntpHeader} (hf : f.Collects hs) (hg : g.WellFormed)
    (hkey : g.toNntpFileBase = f.toNntpFileBase) (hcons : NntpCache.Consistent (headers g + hs)) :
    (f.mergefile g).2.parts = [] ∧ (f.mergefile g).1.Collects (headers g + hs) :=
  mergeParts_collects g.parts _ hs (NntpCache.collects_update hf) hg.articles hkey hcons

end NntpFile
end Nget

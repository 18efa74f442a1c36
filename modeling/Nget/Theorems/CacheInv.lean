import Nget.Theorems.Files

/-! The representation invariant of the header cache. Of each file: it has parts, in strictly ascending
    order of their numbers, every part has an article, and `have` counts the parts that `count_partnum`
    counts. Of the cache: the files are sorted, `totalnum` counts the parts, and each server's `num` counts
    its articles, none above the server's `high`. It holds whatever the article numbers are; that a
    server's articles are not below `low` either is kept separately, since it needs more (`Bounded`). -/

namespace Nget

@[simp] theorem NntpServerArticle.ofHeader_serverid {h : NntpHeader} : (ofHeader h).serverid = h.serverid := rfl

@[simp] theorem NntpServerArticle.ofHeader_articlenum {h : NntpHeader} : (ofHeader h).articlenum = h.articlenum := rfl

namespace NntpPart

@[simp] theorem addserverarticle_partnum {p : NntpPart} {h : NntpHeader} : (p.addserverarticle h).partnum = p.partnum := rfl

@[simp] theorem addserverarticle_messageid {p : NntpPart} {h : NntpHeader} :
    (p.addserverarticle h).messageid = p.messageid := rfl

@[simp] theorem addserverarticle_articles {p : NntpPart} {h : NntpHeader} :
    (p.addserverarticle h).articles = p.articles ++ [.ofHeader h] := rfl

@[simp] theorem ofHeader_partnum {h : NntpHeader} : (ofHeader h).partnum = h.partnum := rfl

@[simp] theorem ofHeader_articles {h : NntpHeader} : (ofHeader h).articles = [.ofHeader h] := rfl

end NntpPart

namespace NntpFile

@[simp] theorem addpart_toNntpFileBase {f : NntpFile} {p : NntpPart} : (f.addpart p).toNntpFileBase = f.toNntpFileBase := rfl

@[simp] theorem addpart_parts {f : NntpFile} {p : NntpPart} : (f.addpart p).parts = NntpFileParts.addpart f.parts p := rfl

theorem addpart_haveNum {f : NntpFile} {p : NntpPart} :
    (f.addpart p).haveNum = f.haveNum + if countPartnum p.partnum f.req then 1 else 0 := by
  unfold addpart
  split <;> simp

/-- The articles of a file's parts. -/
def articles (f : NntpFile) : List NntpServerArticle := f.parts.flatMap (·.articles)

/-- The number of the file's parts that count. -/
def countParts (req : Int32) (parts : List NntpPart) : Nat := parts.countP fun p => countPartnum p.partnum req

structure WellFormed (f : NntpFile) : Prop where
  nonempty : f.parts ≠ []
  increasing : NntpFileParts.Increasing f.parts
  articles : ∀ p ∈ f.parts, p.articles ≠ []
  haveNum : f.haveNum = countParts f.req f.parts

end NntpFile

namespace NntpCache
variable {c : NntpCache} {h : NntpHeader} {now : Int64} {files files' : List NntpFile} {newpart : Bool}

def numParts (files : List NntpFile) : Nat := (files.map (·.parts.length)).sum

def articles (files : List NntpFile) : List NntpServerArticle := files.flatMap NntpFile.articles

/-- The number of the server's articles. -/
def countServer (serverid : UInt64) (files : List NntpFile) : Nat :=
  (articles files).countP fun sa => sa.serverid = serverid

structure Inv (c : NntpCache) : Prop where
  files : ∀ f ∈ c.files, f.WellFormed
  sorted : Sorted c.files
  totalnum : c.totalnum = UInt64.ofNat (numParts c.files)
  serverid : ∀ e ∈ c.serverInfo, e.2.serverid = e.1
  num : ∀ serverid, (c.servinfo serverid).num = UInt64.ofNat (countServer serverid c.files)
  high : ∀ sa ∈ articles c.files, sa.articlenum ≤ (c.servinfo sa.serverid).high

@[simp] theorem numParts_append {fs gs : List NntpFile} : numParts (fs ++ gs) = numParts fs + numParts gs := by
  simp [numParts]

@[simp] theorem numParts_cons {f : NntpFile} {fs : List NntpFile} : numParts (f :: fs) = f.parts.length + numParts fs := by
  simp [numParts]

@[simp] theorem articles_append {fs gs : List NntpFile} : articles (fs ++ gs) = articles fs ++ articles gs := by
  simp [articles]

@[simp] theorem articles_cons {f : NntpFile} {fs : List NntpFile} : articles (f :: fs) = f.articles ++ articles fs := by
  simp [articles]

/-! ### One file gets an article or a part -/

section File
variable {f : NntpFile} {p : NntpPart}

/-- The file's parts around one of them, which takes the articles. -/
theorem pushArticles_parts {partnum : Int32} {sas : List NntpServerArticle} (hp : NntpFileParts.part f.parts partnum = some p) :
    ∃ before after, f.parts = before ++ p :: after ∧
      (f.pushArticles p sas).parts = before ++ { p with articles := p.articles ++ sas } :: after := by
  obtain ⟨hget, hnum⟩ := NntpFileParts.part_eq_some hp
  have hindex : NntpFileParts.lowerBound f.parts p.partnum = NntpFileParts.lowerBound f.parts partnum := by rw [hnum]
  unfold NntpFile.pushArticles
  rw [hindex]
  generalize NntpFileParts.lowerBound f.parts partnum = i at hget
  obtain ⟨hi, rfl⟩ := List.getElem?_eq_some_iff.mp hget
  refine ⟨f.parts.take i, f.parts.drop (i + 1), ?_, ?_⟩
  · rw [List.getElem_cons_drop, List.take_append_drop]
  · exact List.set_eq_take_append_cons_drop .. |>.trans (if_pos hi)

theorem withArticle_eq (hp : NntpFileParts.part f.parts h.partnum = some p) :
    withArticle h f p = f.pushArticles p [.ofHeader h] := by
  have hindex : NntpFileParts.lowerBound f.parts p.partnum = NntpFileParts.lowerBound f.parts h.partnum := by
    rw [(NntpFileParts.part_eq_some hp).2]
  unfold withArticle NntpFile.pushArticles
  rw [hindex]
  rfl

theorem set_part (hp : NntpFileParts.part f.parts h.partnum = some p) :
    ∃ before after, f.parts = before ++ p :: after ∧
      (withArticle h f p).parts = before ++ p.addserverarticle h :: after := by
  rw [withArticle_eq hp]
  exact pushArticles_parts hp

theorem wellFormed_pushArticles {partnum : Int32} {sas : List NntpServerArticle} (hf : f.WellFormed)
    (hp : NntpFileParts.part f.parts partnum = some p) : (f.pushArticles p sas).WellFormed := by
  obtain ⟨before, after, hparts, hparts'⟩ := @pushArticles_parts _ _ _ sas hp
  have hinc := hf.increasing
  have hart := hf.articles
  have hnum := hf.haveNum
  rw [hparts] at hinc hart hnum
  refine ⟨by simp [hparts'], ?_, ?_, ?_⟩
  · rw [hparts']
    unfold NntpFileParts.Increasing at hinc ⊢
    simpa [List.pairwise_append] using hinc
  · rw [hparts']
    intro q hq
    rcases List.mem_append.mp hq with hq | hq
    · exact hart q (by simp [hq])
    · rcases List.mem_cons.mp hq with rfl | hq
      · simp [hart p (by simp)]
      · exact hart q (by simp [hq])
  · rw [hparts']
    refine hnum.trans (congrArg Nat.cast ?_)
    show NntpFile.countParts f.req _ = NntpFile.countParts f.req _
    simp only [NntpFile.countParts, List.countP_append, List.countP_cons]

theorem wellFormed_withArticle (hf : f.WellFormed) (hp : NntpFileParts.part f.parts h.partnum = some p) :
    (withArticle h f p).WellFormed := by
  rw [withArticle_eq hp]
  exact wellFormed_pushArticles hf hp

/-- `l'` is `l` with the header's article put in somewhere. -/
def Inserted (h : NntpHeader) (l l' : List NntpServerArticle) : Prop := ∃ l₁ l₂, l = l₁ ++ l₂ ∧ l' = l₁ ++ .ofHeader h :: l₂

theorem Inserted.perm {l l' : List NntpServerArticle} (hi : Inserted h l l') : l'.Perm (.ofHeader h :: l) := by
  obtain ⟨l₁, l₂, rfl, rfl⟩ := hi
  exact List.perm_middle

theorem Inserted.around {l l' pre post : List NntpServerArticle} (hi : Inserted h l l') :
    Inserted h (pre ++ (l ++ post)) (pre ++ (l' ++ post)) := by
  obtain ⟨l₁, l₂, rfl, rfl⟩ := hi
  exact ⟨pre ++ l₁, l₂ ++ post, by simp, by simp⟩

theorem Inserted.filter {l l' : List NntpServerArticle} (hi : Inserted h l l') {q : NntpServerArticle → Bool}
    (hq : q (.ofHeader h) = false) : l'.filter q = l.filter q := by
  obtain ⟨l₁, l₂, rfl, rfl⟩ := hi
  simp [hq]

theorem articles_withArticle (hp : NntpFileParts.part f.parts h.partnum = some p) :
    Inserted h f.articles (withArticle h f p).articles := by
  obtain ⟨before, after, hparts, hparts'⟩ := set_part hp
  unfold NntpFile.articles
  rw [hparts, hparts']
  simp only [List.flatMap_append, List.flatMap_cons, NntpPart.addserverarticle_articles]
  exact Inserted.around ⟨p.articles, [], by simp, rfl⟩

theorem wellFormed_addpart (hinc : NntpFileParts.Increasing f.parts) (hart : ∀ q ∈ f.parts, q.articles ≠ [])
    (hnum : f.haveNum = NntpFile.countParts f.req f.parts) (hp : p.articles ≠ [])
    (hnew : ∀ q ∈ f.parts, q.partnum ≠ p.partnum) : (f.addpart p).WellFormed := by
  have hperm := NntpFileParts.addpart_perm (p := p) hinc.ascending
  refine ⟨fun hnil => ?_, NntpFileParts.increasing_addpart hinc hnew, fun q hq => ?_, ?_⟩
  · have := (NntpFileParts.mem_addpart (p := p) (q := p) hinc.ascending).mpr (Or.inl rfl)
    rw [NntpFile.addpart_parts] at hnil
    exact absurd (hnil ▸ this) List.not_mem_nil
  · rcases (NntpFileParts.mem_addpart hinc.ascending).mp hq with rfl | hq
    · exact hp
    · exact hart q hq
  · rw [NntpFile.addpart_haveNum, hnum, NntpFile.addpart_toNntpFileBase, NntpFile.addpart_parts]
    unfold NntpFile.countParts
    rw [hperm.countP_eq, List.countP_cons, Nat.cast_add, Nat.cast_ite, Nat.cast_one, Nat.cast_zero]

theorem wellFormed_addnewpart (hf : f.WellFormed) (hp : NntpFileParts.part f.parts h.partnum = none) :
    (f.addnewpart (.ofHeader h) now).WellFormed :=
  wellFormed_addpart (f := { f with update := now }) hf.increasing hf.articles hf.haveNum (by simp)
    ((NntpFileParts.part_eq_none_iff hf.increasing).mp hp)

theorem addnewpart_parts (hf : NntpFileParts.Increasing f.parts) :
    (f.addnewpart p now).parts.Perm (p :: f.parts) :=
  NntpFileParts.addpart_perm hf.ascending

theorem articles_addnewpart (hf : NntpFileParts.Increasing f.parts) :
    Inserted h f.articles (f.addnewpart (.ofHeader h) now).articles := by
  have hparts := NntpFileParts.addpart_eq (p := .ofHeader h) hf.ascending
  unfold NntpFile.articles
  generalize NntpFileParts.lowerBound f.parts (NntpPart.ofHeader h).partnum = i at hparts
  refine ⟨(f.parts.take i).flatMap (·.articles), (f.parts.drop i).flatMap (·.articles), ?_, ?_⟩
  · rw [← List.flatMap_append, List.take_append_drop]
  · refine (congrArg (List.flatMap (·.articles)) hparts).trans ?_
    rw [List.flatMap_append, List.flatMap_cons, NntpPart.ofHeader_articles, List.singleton_append]

theorem wellFormed_newFile : (newFile h now).WellFormed :=
  wellFormed_addpart (f := { NntpFile.ofHeader h with update := now }) List.Pairwise.nil (by simp [NntpFile.ofHeader])
    (by simp [NntpFile.ofHeader, NntpFile.countParts]) (by simp) (by simp [NntpFile.ofHeader])

theorem newFile_parts : (newFile h now).parts = [.ofHeader h] := rfl

end File

/-! ### `additem` -/

theorem Added.wellFormed (ha : Added h now files files' newpart) (hf : ∀ f ∈ files, f.WellFormed) :
    ∀ f ∈ files', f.WellFormed := by
  cases ha with
  | article key part mid =>
    simp only [List.forall_mem_append, List.forall_mem_cons] at hf ⊢
    exact ⟨hf.1, wellFormed_withArticle hf.2.1 part, hf.2.2⟩
  | part key part =>
    simp only [List.forall_mem_append, List.forall_mem_cons] at hf ⊢
    exact ⟨hf.1, wellFormed_addnewpart hf.2.1 part, hf.2.2⟩
  | file before after conflicts =>
    simp only [List.forall_mem_append, List.forall_mem_cons] at hf ⊢
    exact ⟨hf.1, wellFormed_newFile, hf.2⟩

theorem Added.sorted (ha : Added h now files files' newpart) (hs : Sorted files) : Sorted files' := by
  unfold Sorted at hs ⊢
  cases ha with
  | article key part mid =>
    simp only [List.pairwise_append, List.pairwise_cons, List.forall_mem_cons] at hs ⊢
    exact hs
  | part key part =>
    simp only [List.pairwise_append, List.pairwise_cons, List.forall_mem_cons] at hs ⊢
    exact hs
  | file before after conflicts =>
    simp only [List.pairwise_append, List.pairwise_cons, List.forall_mem_cons] at hs ⊢
    exact ⟨hs.1, ⟨fun f hf => NntpFileBase.not_lt_of_lt (after f hf), hs.2.1⟩, fun f hf => ⟨before f hf, hs.2.2 f hf⟩⟩

theorem Added.numParts (ha : Added h now files files' newpart) (hf : ∀ f ∈ files, f.WellFormed) :
    NntpCache.numParts files' = NntpCache.numParts files + if newpart then 1 else 0 := by
  cases ha with
  | article key part mid => simp [withArticle]
  | @part pre post f key part =>
    have := (@addnewpart_parts now _ (.ofHeader h) (hf f (by simp)).increasing).length_eq
    simp only [numParts_append, numParts_cons, this, List.length_cons, if_true]
    omega
  | file before after conflicts =>
    simp only [numParts_append, numParts_cons, newFile_parts, List.length_cons, List.length_nil, if_true]
    omega

theorem Added.articles (ha : Added h now files files' newpart) (hf : ∀ f ∈ files, f.WellFormed) :
    Inserted h (NntpCache.articles files) (NntpCache.articles files') := by
  cases ha with
  | article key part mid =>
    simp only [articles_append, articles_cons]
    exact (articles_withArticle part).around
  | @part pre post f key part =>
    simp only [articles_append, articles_cons]
    exact (articles_addnewpart (hf f (by simp)).increasing).around
  | @file pre post before after conflicts =>
    simp only [articles_append, articles_cons]
    exact ⟨NntpCache.articles pre, NntpCache.articles post, rfl, by simp [NntpFile.articles, newFile_parts]⟩

/-! ### The servers' intervals and counts -/

theorem servinfo_setServinfo {serverid s : UInt64} {si : NntpServerInfo} :
    (c.setServinfo serverid si).servinfo s = if s = serverid then si else c.servinfo s := by
  unfold servinfo setServinfo
  dsimp only
  rw [SortedMap.find?_assign]
  split <;> rfl

theorem countServer_perm {serverid : UInt64} {sa : NntpServerArticle} (hp : (articles files').Perm (sa :: articles files)) :
    countServer serverid files' = countServer serverid files + if sa.serverid = serverid then 1 else 0 := by
  unfold countServer
  rw [hp.countP_eq, List.countP_cons]
  simp

theorem servinfo_additem {s : UInt64} : (c.additem h now).1.servinfo s =
    if s = h.serverid then (c.servinfo h.serverid).addArticle h.articlenum else c.servinfo s := by
  unfold additem
  dsimp only
  split <;> exact servinfo_setServinfo

theorem serverInfo_additem : (c.additem h now).1.serverInfo =
    c.serverInfo.assign h.serverid ((c.servinfo h.serverid).addArticle h.articlenum) := by
  unfold additem
  dsimp only
  split <;> rfl

theorem le_addArticle_high {si : NntpServerInfo} {n m : UInt64} :
    m ≤ (si.addArticle n).high ↔ m ≤ si.high ∨ m ≤ n := by
  unfold NntpServerInfo.addArticle
  dsimp only
  split
  · next hlt => exact ⟨Or.inr, fun hm => hm.elim (fun hm => hm.trans hlt.le) id⟩
  · next hge => exact ⟨Or.inl, fun hm => hm.elim id fun hm => hm.trans (not_lt.mp hge)⟩

theorem addArticle_low_le {si : NntpServerInfo} {n m : UInt64} :
    (si.addArticle n).low ≤ m ↔ si.low ≤ m ∨ n ≤ m := by
  unfold NntpServerInfo.addArticle
  dsimp only
  split
  · next hlt => exact ⟨Or.inr, fun hm => hm.elim (fun hm => hlt.le.trans hm) id⟩
  · next hge => exact ⟨Or.inl, fun hm => hm.elim id fun hm => (not_lt.mp hge).trans hm⟩

/-- A server's info has the server's id, whether it is in the map or new. -/
theorem servinfo_serverid (hid : ∀ e ∈ c.serverInfo, e.2.serverid = e.1) {s : UInt64} : (c.servinfo s).serverid = s := by
  unfold servinfo
  cases he : c.serverInfo.find? s with
  | none => rfl
  | some e =>
    obtain ⟨hmem, rfl⟩ := SortedMap.find?_eq_some_iff.mp he
    exact hid e hmem

theorem serverid_setServinfo {s : UInt64} {si : NntpServerInfo} (hid : ∀ e ∈ c.serverInfo, e.2.serverid = e.1)
    (hsi : si.serverid = s) : ∀ e ∈ (c.setServinfo s si).serverInfo, e.2.serverid = e.1 := by
  intro e he
  rcases SortedMap.mem_assign.mp he with rfl | ⟨he, -⟩
  · exact hsi
  · exact hid e he

theorem inv_empty : Inv ∅ where
  files := by simp [EmptyCollection.emptyCollection]
  sorted := List.Pairwise.nil
  totalnum := rfl
  serverid := by simp [EmptyCollection.emptyCollection, SortedMap.mem_def]
  num := fun _ => rfl
  high := by simp [EmptyCollection.emptyCollection, articles]

theorem Inv.additem (hc : c.Inv) : (c.additem h now).1.Inv := by
  obtain ⟨newpart, ha, htotal, -⟩ := @additem_added _ h now hc.sorted
  have hperm := (ha.articles hc.files).perm
  refine ⟨ha.wellFormed hc.files, ha.sorted hc.sorted, ?_, ?_, fun s => ?_, fun sa hsa => ?_⟩
  · rw [htotal, ha.numParts hc.files, hc.totalnum]
    cases newpart <;> simp [UInt64.ofNat_add]
  · rw [serverInfo_additem]
    exact serverid_setServinfo hc.serverid (servinfo_serverid hc.serverid)
  · rw [servinfo_additem, countServer_perm hperm]
    split
    · next hs =>
      subst hs
      show (c.servinfo h.serverid).num + 1 = _
      rw [hc.num, NntpServerArticle.ofHeader_serverid, if_pos rfl, UInt64.ofNat_add]
      rfl
    · next hs => rw [hc.num, if_neg fun heq => hs heq.symm, Nat.add_zero]
  · rw [servinfo_additem]
    rcases List.mem_cons.mp (hperm.mem_iff.mp hsa) with rfl | hsa
    · rw [NntpServerArticle.ofHeader_serverid, if_pos rfl, le_addArticle_high]
      exact Or.inr le_rfl
    · split
      · next hs =>
        rw [le_addArticle_high, ← hs]
        exact Or.inl (hc.high sa hsa)
      · exact hc.high sa hsa

end NntpCache
end Nget

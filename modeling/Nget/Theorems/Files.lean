import Nget.Cache
import Nget.Theorems.Parts

/-! The order of the cache's files. `operator<` is the lexicographic order of the key's five fields, so it is
    a strict linear order, and on sorted files the extent that `additem` scans has exactly the files of the
    header's key. What `additem` does to the files is one of three changes (`additem_cases`). -/

namespace Nget
namespace NntpFileBase
variable {a b c : NntpFileBase}

/-- The fields that `operator<` compares, in its order. -/
def key (a : NntpFileBase) : Int32 ×ₗ Int32 ×ₗ List Char ×ₗ List Char ×ₗ List (List Char) :=
  toLex (a.req, toLex (a.partoff, toLex (a.author, toLex (a.subject, a.references))))

theorem key_inj (h : a.key = b.key) : a = b := by
  cases a
  cases b
  simpa [key] using h

theorem ite_lex {α : Type} [LinearOrder α] {x y : α} [Decidable (x < y)] [Decidable (y < x)] {rest : Bool} :
    (if x < y then true else if y < x then false else rest) = true ↔ x < y ∨ x = y ∧ rest = true := by
  rcases lt_trichotomy x y with h | rfl | h
  · simp [h]
  · simp
  · simp [h, lt_asymm h, h.ne']

theorem lt_iff : a.lt b = true ↔ a.key < b.key := by
  unfold lt key
  simp only [Prod.Lex.lt_iff, ofLex_toLex, ite_lex, decide_eq_true_eq]

theorem eq_of_not_lt (hab : ¬a.lt b = true) (hba : ¬b.lt a = true) : a = b := by
  rw [lt_iff, not_lt] at hab hba
  exact key_inj (le_antisymm hba hab)

theorem not_lt_self : ¬a.lt a = true := fun h => lt_irrefl _ (lt_iff.mp h)

theorem not_lt_trans (hab : ¬b.lt a = true) (hbc : ¬c.lt b = true) : ¬c.lt a = true := by
  rw [lt_iff, not_lt] at *
  exact hab.trans hbc

theorem not_lt_of_lt (h : a.lt b = true) : ¬b.lt a = true := by
  rw [lt_iff] at *
  exact not_lt.mpr h.le

end NntpFileBase

namespace NntpCache
variable {c : NntpCache} {h : NntpHeader} {now : Int64}

/-- The files stand in the order of their keys. -/
def Sorted (files : List NntpFile) : Prop := files.Pairwise fun f g => ¬g.toNntpFileBase.lt f.toNntpFileBase

/-- The file has the header's part under another message-id, so `additem` passes it by. -/
def Conflicts (h : NntpHeader) (f : NntpFile) : Prop :=
  ∃ p, NntpFileParts.part f.parts h.partnum = some p ∧ p.messageid ≠ h.messageid

/-- The file with the header's article added to the part `p` that it has of the header's number. -/
def withArticle (h : NntpHeader) (f : NntpFile) (p : NntpPart) : NntpFile :=
  { f with parts := f.parts.set (NntpFileParts.lowerBound f.parts h.partnum) (p.addserverarticle h) }

/-- The file that `additem` makes of a header. -/
def newFile (h : NntpHeader) (now : Int64) : NntpFile := (NntpFile.ofHeader h).addnewpart (.ofHeader h) now

/-- What `additem` makes of the files: an article more, a part more or a file more. -/
inductive Added (h : NntpHeader) (now : Int64) : List NntpFile → List NntpFile → Bool → Prop where
  | article {pre post : List NntpFile} {f : NntpFile} {p : NntpPart} (key : f.toNntpFileBase = h.toNntpFileBase)
      (part : NntpFileParts.part f.parts h.partnum = some p) (mid : p.messageid = h.messageid) :
      Added h now (pre ++ f :: post) (pre ++ withArticle h f p :: post) false
  | part {pre post : List NntpFile} {f : NntpFile} (key : f.toNntpFileBase = h.toNntpFileBase)
      (part : NntpFileParts.part f.parts h.partnum = none) :
      Added h now (pre ++ f :: post) (pre ++ f.addnewpart (.ofHeader h) now :: post) true
  | file {pre post : List NntpFile} (before : ∀ f ∈ pre, ¬h.toNntpFileBase.lt f.toNntpFileBase)
      (after : ∀ f ∈ post, h.toNntpFileBase.lt f.toNntpFileBase)
      (conflicts : ∀ f ∈ pre ++ post, f.toNntpFileBase = h.toNntpFileBase → Conflicts h f) :
      Added h now (pre ++ post) (pre ++ newFile h now :: post) true

/-- The files that `additem` passes by conflict, up to the end or to the file of the key that takes the article. -/
def Passed (h : NntpHeader) (files : List NntpFile) (newpart : Bool) : Prop := ∃ pre post, files = pre ++ post ∧
  (∀ f ∈ pre, f.toNntpFileBase = h.toNntpFileBase → Conflicts h f) ∧ ∀ f ∈ post.head?, f.toNntpFileBase = h.toNntpFileBase ∧
    if newpart then NntpFileParts.part f.parts h.partnum = none
    else ∃ p, NntpFileParts.part f.parts h.partnum = some p ∧ p.messageid = h.messageid

/-- The loop of `additem` changes the first file that does not conflict, or finds that every file conflicts. -/
theorem additemLoop_cases : ∀ fs : List NntpFile,
    (∃ pre f post p, fs = pre ++ f :: post ∧ NntpFileParts.part f.parts h.partnum = some p ∧ p.messageid = h.messageid ∧
      (∀ g ∈ pre, Conflicts h g) ∧ additemLoop h now fs = some (pre ++ withArticle h f p :: post, false)) ∨
    (∃ pre f post, fs = pre ++ f :: post ∧ NntpFileParts.part f.parts h.partnum = none ∧ (∀ g ∈ pre, Conflicts h g) ∧
      additemLoop h now fs = some (pre ++ f.addnewpart (.ofHeader h) now :: post, true)) ∨
    (∀ f ∈ fs, Conflicts h f) ∧ additemLoop h now fs = none
  | [] => Or.inr (Or.inr ⟨by simp, rfl⟩)
  | f :: fs => by
    unfold additemLoop
    cases hp : NntpFileParts.part f.parts h.partnum with
    | none => exact Or.inr (Or.inl ⟨[], f, fs, rfl, hp, by simp, rfl⟩)
    | some p =>
      by_cases hmid : p.messageid = h.messageid
      · exact Or.inl ⟨[], f, fs, p, rfl, hp, hmid, by simp, by simp [hmid, withArticle]⟩
      · have hf : Conflicts h f := ⟨p, hp, hmid⟩
        rcases additemLoop_cases fs with
          ⟨pre, g, post, q, rfl, hq, hqm, hpre, hloop⟩ | ⟨pre, g, post, rfl, hq, hpre, hloop⟩ | ⟨hall, hloop⟩
        · exact Or.inl ⟨f :: pre, g, post, q, rfl, hq, hqm, List.forall_mem_cons.mpr ⟨hf, hpre⟩, by simp [hmid, hloop]⟩
        · exact Or.inr (Or.inl ⟨f :: pre, g, post, rfl, hq, List.forall_mem_cons.mpr ⟨hf, hpre⟩, by simp [hmid, hloop]⟩)
        · exact Or.inr (Or.inr ⟨List.forall_mem_cons.mpr ⟨hf, hall⟩, by simp [hmid, hloop]⟩)

/-- In a list where `p` holds up to some element, `p` fails behind the elements that it drops. -/
theorem not_of_mem_dropWhile {α : Type} {p : α → Bool} {x : α} :
    ∀ {l : List α}, l.Pairwise (fun a b => p b = true → p a = true) → x ∈ l.dropWhile p → p x = false
  | [], _, hx => by simp at hx
  | a :: l, hl, hx => by
    obtain ⟨hhead, htail⟩ := List.pairwise_cons.mp hl
    by_cases ha : p a = true
    · rw [List.dropWhile_cons_of_pos ha] at hx
      exact not_of_mem_dropWhile htail hx
    · rw [List.dropWhile_cons_of_neg ha] at hx
      rcases List.mem_cons.mp hx with rfl | hx
      · simpa using ha
      · by_contra hpx
        exact ha (hhead x hx (by simpa using hpx))

/-- On sorted files the extent that `additem` scans has the files of the header's key. -/
theorem equalRange {files : List NntpFile} (hs : Sorted files) :
    let rest := files.dropWhile fun f => f.toNntpFileBase.lt h.toNntpFileBase
    (∀ f ∈ files.takeWhile fun f => f.toNntpFileBase.lt h.toNntpFileBase, f.toNntpFileBase.lt h.toNntpFileBase) ∧
      (∀ f ∈ rest.takeWhile fun f => !h.toNntpFileBase.lt f.toNntpFileBase, f.toNntpFileBase = h.toNntpFileBase) ∧
      ∀ f ∈ rest.dropWhile fun f => !h.toNntpFileBase.lt f.toNntpFileBase, h.toNntpFileBase.lt f.toNntpFileBase := by
  intro rest
  refine ⟨fun f hf => ?_, fun f hf => ?_, fun f hf => ?_⟩
  · exact List.mem_takeWhile_imp (p := fun f : NntpFile => f.toNntpFileBase.lt h.toNntpFileBase) hf
  · have hnot := List.mem_takeWhile_imp (p := fun f : NntpFile => !h.toNntpFileBase.lt f.toNntpFileBase) hf
    refine NntpFileBase.eq_of_not_lt ?_ (by simpa using hnot)
    have := not_of_mem_dropWhile (p := fun f : NntpFile => f.toNntpFileBase.lt h.toNntpFileBase)
      (hs.imp fun {a b} hab hb => ?_) ((List.takeWhile_sublist _).subset hf)
    · simpa using this
    · rw [NntpFileBase.lt_iff] at *
      exact (not_lt.mp hab).trans_lt hb
  · have := not_of_mem_dropWhile (p := fun f : NntpFile => !h.toNntpFileBase.lt f.toNntpFileBase)
      ((hs.sublist (List.dropWhile_sublist _)).imp fun {a b} hab hb => ?_) hf
    · simpa using this
    · simp only [Bool.not_eq_true', ← Bool.not_eq_true] at hb ⊢
      exact NntpFileBase.not_lt_trans hab hb

/-- `additem` makes one of the three changes to the files, and counts the part that it adds. -/
theorem additem_added (hs : Sorted c.files) : ∃ newpart, Added h now c.files (c.additem h now).1.files newpart ∧
    (c.additem h now).1.totalnum = (if newpart then c.totalnum + 1 else c.totalnum) ∧ Passed h c.files newpart := by
  obtain ⟨hbefore, heq, hafter⟩ := equalRange (h := h) hs
  have hsplit := List.takeWhile_append_dropWhile (p := fun f : NntpFile => f.toNntpFileBase.lt h.toNntpFileBase) (l := c.files)
  have hsplit2 := List.takeWhile_append_dropWhile (p := fun f : NntpFile => !h.toNntpFileBase.lt f.toNntpFileBase)
    (l := c.files.dropWhile fun f => f.toNntpFileBase.lt h.toNntpFileBase)
  unfold additem
  dsimp only at *
  generalize (c.files.takeWhile fun f => f.toNntpFileBase.lt h.toNntpFileBase) = before at *
  generalize (c.files.dropWhile fun f => f.toNntpFileBase.lt h.toNntpFileBase) = rest at *
  generalize (rest.takeWhile fun f => !h.toNntpFileBase.lt f.toNntpFileBase) = irange at *
  generalize (rest.dropWhile fun f => !h.toNntpFileBase.lt f.toNntpFileBase) = after at *
  rw [← hsplit, ← hsplit2]
  have hpassed : ∀ pre : List NntpFile, (∀ g ∈ pre, Conflicts h g) → ∀ g ∈ before ++ pre,
      g.toNntpFileBase = h.toNntpFileBase → Conflicts h g := fun pre hpre g hg hkey => by
    rcases List.mem_append.mp hg with hg | hg
    · exact absurd (hkey ▸ hbefore g hg) NntpFileBase.not_lt_self
    · exact hpre g hg
  rcases @additemLoop_cases h now irange with
    ⟨pre, f, post, p, rfl, hp, hmid, hpre, hloop⟩ | ⟨pre, f, post, rfl, hp, hpre, hloop⟩ | ⟨hall, hloop⟩
  · rw [hloop]
    have hf := heq f (by simp)
    refine ⟨false, ?_, rfl, before ++ pre, f :: post ++ after, by simp, hpassed pre hpre, by simp [hf, hp, hmid]⟩
    have := @Added.article _ now (before ++ pre) (post ++ after) _ _ hf hp hmid
    simpa using this
  · rw [hloop]
    have hf := heq f (by simp)
    refine ⟨true, ?_, rfl, before ++ pre, f :: post ++ after, by simp, hpassed pre hpre, by simp [hf, hp]⟩
    have := @Added.part _ now (before ++ pre) (post ++ after) _ hf hp
    simpa using this
  · rw [hloop]
    have hconflicts : ∀ f ∈ before ++ irange ++ after, f.toNntpFileBase = h.toNntpFileBase → Conflicts h f := by
      intro f hf hkey
      rcases List.mem_append.mp hf with hf | hf
      · exact hpassed irange hall f hf hkey
      · exact absurd (hkey ▸ hafter f hf) NntpFileBase.not_lt_self
    refine ⟨true, ?_, rfl, before ++ irange ++ after, [], by simp, hconflicts, by simp⟩
    have := @Added.file h now (before ++ irange) after (fun f hf => ?_) hafter hconflicts
    · simpa [newFile] using this
    · rcases List.mem_append.mp hf with hf | hf
      · exact NntpFileBase.not_lt_of_lt (hbefore f hf)
      · exact heq f hf ▸ NntpFileBase.not_lt_self

end NntpCache
end Nget

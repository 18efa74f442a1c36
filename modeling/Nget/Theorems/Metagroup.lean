import Nget.Theorems.CacheDoc
import Nget.Theorems.FiledOnce
import Nget.Theorems.MergeFile

/-! Several caches read as one. A reader stands for the list of the files that it still gives (`rest`), whatever the
    others read in between. `Round` says what one round does to each slot; the rest follows by induction on it: the
    articles stay, the slots' files stay in order above the file that is passed on, and without conflicts that file
    collects the headers of its key. -/

namespace Nget
open CString CacheReader

namespace Metagroup

section
variable (hasserver : UInt64 → Bool)

/-- The files that a reader still gives. -/
def rest (r : CacheReader) : List NntpFile := keptFiles hasserver (docRun r.group .file (bufLines r.f)).2

/-- The files of a slot, its file and those that come. -/
def slotFiles (slot : MergeSlot) : List NntpFile := slot.nfile :: rest hasserver slot.reader

/-- What the slots from index `i` on have beside the file `mergef` of the slot `m`. -/
def pending (m : Nat) : Nat → List MergeSlot → List NntpFile
  | _, [] => []
  | i, slot :: slots => (if i = m then rest hasserver slot.reader else slotFiles hasserver slot) ++ pending m (i + 1) slots

/-- The reader of a slot has gone on: its next file is the slot's, or there is no slot. -/
structure Advanced (r : CacheReader) (new : Option MergeSlot) : Prop where
  files : new.toList.flatMap (slotFiles hasserver) = rest hasserver r
  shorter : ∀ slot ∈ new, slot.reader.f.length < r.f.length

/-- One round over the slots from index `i` on: what it makes of the slots and of `mergef`. -/
inductive Round (m : Nat) : Nat → List MergeSlot → NntpFile → List MergeSlot → NntpFile → Prop where
  | done {i : Nat} {mergef : NntpFile} : Round m i [] mergef [] mergef
  /-- The slot of `mergef` itself. -/
  | own {slot : MergeSlot} {slots slots' : List MergeSlot} {mergef mergef' : NntpFile} {new : Option MergeSlot} :
      Advanced hasserver slot.reader new → Round m (m + 1) slots mergef slots' mergef' →
      Round m m (slot :: slots) mergef (new.toList ++ slots') mergef'
  /-- A file of the same key that is merged whole. -/
  | merged {i : Nat} {slot : MergeSlot} {slots slots' : List MergeSlot} {mergef mergef' : NntpFile} {new : Option MergeSlot} :
      i ≠ m → slot.nfile.toNntpFileBase = mergef.toNntpFileBase → (mergef.mergefile slot.nfile).2.parts = [] →
      Advanced hasserver slot.reader new → Round m (i + 1) slots (mergef.mergefile slot.nfile).1 slots' mergef' →
      Round m i (slot :: slots) mergef (new.toList ++ slots') mergef'
  /-- A file of the same key of which parts are held back. -/
  | held {i : Nat} {slot : MergeSlot} {slots slots' : List MergeSlot} {mergef mergef' : NntpFile} :
      i ≠ m → slot.nfile.toNntpFileBase = mergef.toNntpFileBase → (mergef.mergefile slot.nfile).2.parts ≠ [] →
      Round m (i + 1) slots (mergef.mergefile slot.nfile).1 slots' mergef' →
      Round m i (slot :: slots) mergef ({ slot with nfile := (mergef.mergefile slot.nfile).2 } :: slots') mergef'
  | other {i : Nat} {slot : MergeSlot} {slots slots' : List MergeSlot} {mergef mergef' : NntpFile} :
      i ≠ m → slot.nfile.toNntpFileBase ≠ mergef.toNntpFileBase → Round m (i + 1) slots mergef slots' mergef' →
      Round m i (slot :: slots) mergef (slot :: slots') mergef'

end

variable {hasserver : UInt64 → Bool} {now : Int64} {m i : Nat} {slot : MergeSlot} {slots slots' : List MergeSlot}
  {mergef mergef' : NntpFile} {sh : ReaderShared}

/-! ### Reading -/

/-- What a call of `read_file` comes to, over the files that the reader gives. -/
def ReadRest (hasserver : UInt64 → Bool) (r : CacheReader) : CacheReader × Except Text (Option NntpFile) → Prop
  | (r', .ok (some nf)) => rest hasserver r = nf :: rest hasserver r' ∧ r'.f.length < r.f.length
  | _ => rest hasserver r = []

theorem readFile_rest (r : CacheReader) : ReadRest hasserver r (readFile hasserver now r) := by
  obtain ⟨hread, hsame, hless⟩ := @readFileLoop_spec hasserver now _ r.f.length r .file .file le_rfl (.file rfl)
  have hgroup := hsame.group
  have hrest : rest hasserver r = keptFiles hasserver (docRun r.group .file (bufLines r.f)).2 := rfl
  unfold readFile
  generalize readFileLoop hasserver now r.f.length r .file = out at *
  generalize docRun r.group .file (bufLines r.f) = run at *
  cases hread with
  | done hrecs hcount => exact hrest.trans (keptFiles_eq_nil hrecs)
  | thrown hrecs hpos => exact hrest.trans (keptFiles_eq_nil hrecs)
  | @file r' before rec hbefore hparts hcount =>
    refine ⟨hrest.trans ?_, hless _ rfl⟩
    dsimp only at hgroup ⊢
    rw [keptFiles_append, keptFiles_eq_nil hbefore, keptFiles_cons hparts, List.nil_append, rest, hgroup]

theorem refill_spec (hs : NntpCache.Sorted (slotFiles hasserver slot)) :
    ∃ new sh', refill hasserver now slot sh = some (new, sh') ∧ Advanced hasserver slot.reader new := by
  have hread := @readFile_rest hasserver now (slot.reader.withShared sh)
  have hrest : rest hasserver (slot.reader.withShared sh) = rest hasserver slot.reader := rfl
  unfold refill
  generalize readFile hasserver now (slot.reader.withShared sh) = out at hread
  obtain ⟨r, _ | _ | nf⟩ := out
  · exact ⟨none, _, rfl, by rw [← hrest, hread]; rfl, by simp⟩
  · exact ⟨none, _, rfl, by rw [← hrest, hread]; rfl, by simp⟩
  · obtain ⟨hfiles, hless⟩ := hread
    rw [hrest] at hfiles
    have hnot : ¬nf.toNntpFileBase.lt slot.nfile.toNntpFileBase = true := by
      rw [slotFiles, hfiles] at hs
      exact (List.pairwise_cons.mp hs).1 nf List.mem_cons_self
    refine ⟨some ⟨nf, r⟩, r.shared, if_neg hnot, ?_, ?_⟩
    · rw [hfiles]
      simp [slotFiles]
    · rintro _ ⟨⟩
      exact hless

/-! ### One round -/

theorem sorted_of_key {f g : NntpFile} {fs : List NntpFile} (hs : NntpCache.Sorted (f :: fs))
    (hkey : g.toNntpFileBase = f.toNntpFileBase) : NntpCache.Sorted (g :: fs) := by
  unfold NntpCache.Sorted at hs ⊢
  rw [List.pairwise_cons] at hs ⊢
  rwa [hkey]

/-- The slot of index `m`, if it is one of those from index `i` on, has `mergef`. -/
def OwnSlot (m i : Nat) (slots : List MergeSlot) (mergef : NntpFile) : Prop :=
  ∀ j slot, slots[j]? = some slot → i + j = m → slot.nfile.toNntpFileBase = mergef.toNntpFileBase

theorem OwnSlot.tail (h : OwnSlot m i (slot :: slots) mergef) (hkey : mergef'.toNntpFileBase = mergef.toNntpFileBase) :
    OwnSlot m (i + 1) slots mergef' := fun j slot hj hm => (h (j + 1) slot hj (by omega)).trans hkey.symm

/-- The loop over the slots is a round, and its assertion holds. -/
theorem mergeSlots_round : ∀ (slots : List MergeSlot) (i : Nat) (mergef : NntpFile) (sh : ReaderShared),
    (∀ slot ∈ slots, NntpCache.Sorted (slotFiles hasserver slot)) → OwnSlot m i slots mergef →
    ∃ slots' mergef' sh', mergeSlots hasserver now m i slots mergef sh = some (slots', mergef', sh') ∧
      Round hasserver m i slots mergef slots' mergef'
  | [], _, _, _, _, _ => ⟨_, _, _, rfl, .done⟩
  | slot :: slots, i, mergef, sh, hs, hown => by
    obtain ⟨hslot, hslots⟩ := List.forall_mem_cons.mp hs
    unfold mergeSlots
    by_cases him : i = m
    · rw [him] at hown ⊢
      have hkey := hown 0 slot rfl rfl
      obtain ⟨new, sh', hrefill, hnew⟩ :=
        @refill_spec hasserver now { slot with nfile := mergef } sh (sorted_of_key hslot hkey.symm)
      obtain ⟨slots', mergef', sh'', hloop, hround⟩ := mergeSlots_round slots (m + 1) mergef sh' hslots (hown.tail rfl)
      simp only [decide_true, Bool.true_or, if_true, ne_eq, not_true_eq_false, if_false, hrefill, hloop, Option.map_some]
      exact ⟨_, _, _, rfl, .own hnew hround⟩
    · by_cases hkey : slot.nfile.toNntpFileBase = mergef.toNntpFileBase
      · have hmergef := @NntpFile.mergefile_toNntpFileBase mergef slot.nfile
        by_cases hparts : (mergef.mergefile slot.nfile).2.parts = []
        · obtain ⟨new, sh', hrefill, hnew⟩ := @refill_spec hasserver now
            { slot with nfile := (mergef.mergefile slot.nfile).2 } sh (sorted_of_key hslot rfl)
          obtain ⟨slots', mergef', sh'', hloop, hround⟩ :=
            mergeSlots_round slots (i + 1) (mergef.mergefile slot.nfile).1 sh' hslots (hown.tail hmergef)
          simp only [him, hkey, hparts, decide_false, decide_true, Bool.or_true, if_true, ne_eq, not_false_eq_true,
            List.isEmpty_nil, hrefill, hloop, Option.map_some]
          exact ⟨_, _, _, rfl, .merged him hkey hparts hnew hround⟩
        · obtain ⟨slots', mergef', sh'', hloop, hround⟩ :=
            mergeSlots_round slots (i + 1) (mergef.mergefile slot.nfile).1 sh hslots (hown.tail hmergef)
          have hempty : (mergef.mergefile slot.nfile).2.parts.isEmpty = false := by simpa using hparts
          simp only [him, hkey, hempty, decide_false, decide_true, Bool.or_true, Bool.or_false, Bool.false_eq_true, if_true,
            if_false, ne_eq, not_false_eq_true, hloop, Option.map_some]
          exact ⟨_, _, _, rfl, .held him hkey hparts hround⟩
      · obtain ⟨slots', mergef', sh'', hloop, hround⟩ := mergeSlots_round slots (i + 1) mergef sh hslots (hown.tail rfl)
        simp only [him, hkey, decide_false, Bool.or_false, Bool.false_eq_true, if_false, hloop, Option.map_some]
        exact ⟨_, _, _, rfl, .other him hkey hround⟩

/-! ### What a round keeps -/

/-- A slot's files come in order, and so do the parts of each of them. -/
structure Ordered (hasserver : UInt64 → Bool) (slot : MergeSlot) : Prop where
  sorted : NntpCache.Sorted (slotFiles hasserver slot)
  increasing : ∀ f ∈ slotFiles hasserver slot, NntpFileParts.Increasing f.parts

/-- The next file of an advanced reader is one of those that come, and the others come behind it. -/
theorem Advanced.mem {r : CacheReader} {new : Option MergeSlot} (h : Advanced hasserver r new) (hslot : slot ∈ new.toList) :
    slotFiles hasserver slot = rest hasserver r := by
  rw [← h.files]
  cases new with
  | none => cases hslot
  | some s =>
    rw [Option.toList_some] at hslot ⊢
    rw [List.mem_singleton.mp hslot, List.flatMap_singleton]

theorem Advanced.ordered {new : Option MergeSlot} (h : Advanced hasserver slot.reader new) (hslot : Ordered hasserver slot)
    {s : MergeSlot} (hs : s ∈ new.toList) :
    Ordered hasserver s ∧ ¬s.nfile.toNntpFileBase.lt slot.nfile.toNntpFileBase = true := by
  have hfiles := h.mem hs
  obtain ⟨hhead, htail⟩ := List.pairwise_cons.mp hslot.sorted
  refine ⟨⟨by rw [hfiles]; exact htail, fun f hf => ?_⟩, ?_⟩
  · rw [hfiles] at hf
    exact hslot.increasing f (List.mem_cons_of_mem _ hf)
  · exact hhead _ (hfiles ▸ List.mem_cons_self)

/-- The slots stay in order, and no file in them is below the one that is passed on. -/
theorem Round.ordered (h : Round hasserver m i slots mergef slots' mergef')
    (hs : ∀ slot ∈ slots, Ordered hasserver slot ∧ ¬slot.nfile.toNntpFileBase.lt mergef.toNntpFileBase = true) :
    ∀ slot ∈ slots', Ordered hasserver slot ∧ ¬slot.nfile.toNntpFileBase.lt mergef.toNntpFileBase = true := by
  have hnew : ∀ {slot : MergeSlot} {new : Option MergeSlot} {key : NntpFileBase}, Advanced hasserver slot.reader new →
      Ordered hasserver slot → ¬slot.nfile.toNntpFileBase.lt key = true →
        ∀ s ∈ new.toList, Ordered hasserver s ∧ ¬s.nfile.toNntpFileBase.lt key = true := fun ha hslot hlt s hs =>
    ⟨(ha.ordered hslot hs).1, NntpFileBase.not_lt_trans hlt (ha.ordered hslot hs).2⟩
  induction h with
  | done => simp
  | own ha _ ih =>
    obtain ⟨⟨hslot, hlt⟩, hslots⟩ := List.forall_mem_cons.mp hs
    exact List.forall_mem_append.mpr ⟨hnew ha hslot hlt, ih hslots⟩
  | merged _ _ _ ha _ ih =>
    obtain ⟨⟨hslot, hlt⟩, hslots⟩ := List.forall_mem_cons.mp hs
    rw [NntpFile.mergefile_toNntpFileBase] at ih
    exact List.forall_mem_append.mpr ⟨hnew ha hslot hlt, ih hslots⟩
  | @held i slot slots slots' mergef mergef' _ _ _ _ ih =>
    obtain ⟨⟨hslot, hlt⟩, hslots⟩ := List.forall_mem_cons.mp hs
    rw [NntpFile.mergefile_toNntpFileBase] at ih
    refine List.forall_mem_cons.mpr ⟨⟨⟨sorted_of_key hslot.sorted rfl, List.forall_mem_cons.mpr ⟨?_, ?_⟩⟩, hlt⟩, ih hslots⟩
    · have hsub : (mergef.mergefile slot.nfile).2.parts.Sublist slot.nfile.parts := NntpFile.mergefile_sublist
      exact (hslot.increasing _ List.mem_cons_self).sublist hsub
    · exact fun f hf => hslot.increasing f (List.mem_cons_of_mem _ hf)
  | other _ _ _ ih =>
    obtain ⟨hslot, hslots⟩ := List.forall_mem_cons.mp hs
    exact List.forall_mem_cons.mpr ⟨hslot, ih hslots⟩

/-- Every article of the slots is in the file that is passed on or in the slots. -/
theorem Round.articles (h : Round hasserver m i slots mergef slots' mergef') (hinc : NntpFileParts.Increasing mergef.parts) :
    mergef'.toNntpFileBase = mergef.toNntpFileBase ∧ NntpFileParts.Increasing mergef'.parts ∧
      (mergef'.articles ++ NntpCache.articles (slots'.flatMap (slotFiles hasserver))).Perm
        (mergef.articles ++ NntpCache.articles (pending hasserver m i slots)) := by
  induction h with
  | done => exact ⟨rfl, hinc, List.Perm.refl _⟩
  | @own slot slots slots' mergef mergef' new ha _ ih =>
    obtain ⟨hkey, hinc', hperm⟩ := ih hinc
    refine ⟨hkey, hinc', ?_⟩
    rw [pending, if_pos rfl, List.flatMap_append, ha.files]
    simp only [NntpCache.articles_append, ← Multiset.coe_eq_coe, ← Multiset.coe_add] at hperm ⊢
    rw [add_left_comm, hperm, add_left_comm]
  | @merged i slot slots slots' mergef mergef' new him hkey hparts ha _ ih =>
    obtain ⟨hminc, hmerge⟩ := @NntpFile.mergefile_articles mergef slot.nfile hinc
    obtain ⟨hkey', hinc', hperm⟩ := ih hminc
    refine ⟨hkey'.trans NntpFile.mergefile_toNntpFileBase, hinc', ?_⟩
    have hnone : (mergef.mergefile slot.nfile).2.articles = [] := by simp [NntpFile.articles, hparts]
    rw [pending, if_neg him, List.flatMap_append, ha.files, slotFiles]
    simp only [NntpCache.articles_append, List.cons_append, NntpCache.articles_cons, ← Multiset.coe_eq_coe, ← Multiset.coe_add,
      hnone, Multiset.coe_nil, add_zero] at hperm hmerge ⊢
    rw [add_left_comm, hperm, hmerge]
    ac_rfl
  | @held i slot slots slots' mergef mergef' him hkey hparts _ ih =>
    obtain ⟨hminc, hmerge⟩ := @NntpFile.mergefile_articles mergef slot.nfile hinc
    obtain ⟨hkey', hinc', hperm⟩ := ih hminc
    refine ⟨hkey'.trans NntpFile.mergefile_toNntpFileBase, hinc', ?_⟩
    rw [pending, if_neg him, List.flatMap_cons, slotFiles, slotFiles]
    simp only [NntpCache.articles_append, List.cons_append, NntpCache.articles_cons, ← Multiset.coe_eq_coe,
      ← Multiset.coe_add] at hperm hmerge ⊢
    rw [add_left_comm, add_left_comm (mergef'.articles : Multiset NntpServerArticle), hperm, ← add_assoc, ← add_assoc,
      ← add_assoc, ← hmerge]
    ac_rfl
  | @other i slot slots slots' mergef mergef' him hkey _ ih =>
    obtain ⟨hkey', hinc', hperm⟩ := ih hinc
    refine ⟨hkey', hinc', ?_⟩
    rw [pending, if_neg him, List.flatMap_cons]
    simp only [NntpCache.articles_append, ← Multiset.coe_eq_coe, ← Multiset.coe_add] at hperm ⊢
    rw [add_left_comm, hperm, add_left_comm]

theorem rounds_cons : rounds (slot :: slots) = slot.reader.f.length + 1 + rounds slots := by simp [rounds]

theorem rounds_append : rounds (slots ++ slots') = rounds slots + rounds slots' := by simp [rounds]

theorem Advanced.rounds {r : CacheReader} {new : Option MergeSlot} (h : Advanced hasserver r new) :
    Metagroup.rounds new.toList < r.f.length + 1 := by
  cases new with
  | none => exact Nat.succ_pos _
  | some s =>
    have := h.shorter s rfl
    rw [Option.toList_some, rounds_cons]
    exact Nat.succ_lt_succ this

/-- A round takes away a file of the slot `m`, and nothing is put back. -/
theorem Round.rounds (h : Round hasserver m i slots mergef slots' mergef') :
    Metagroup.rounds slots' ≤ Metagroup.rounds slots ∧
      (i ≤ m → m < i + slots.length → Metagroup.rounds slots' < Metagroup.rounds slots) := by
  induction h with
  | done => exact ⟨le_rfl, fun h1 h2 => absurd h2 (by simpa using h1)⟩
  | own ha _ ih =>
    have := ha.rounds
    rw [rounds_append, rounds_cons]
    exact ⟨by omega, fun _ _ => by omega⟩
  | merged him _ _ ha _ ih =>
    have := ha.rounds
    rw [rounds_append, rounds_cons, List.length_cons]
    exact ⟨by omega, fun _ _ => by omega⟩
  | held him _ _ _ ih =>
    rw [rounds_cons, rounds_cons, List.length_cons]
    dsimp only
    exact ⟨by omega, fun h1 h2 => by have := ih.2 (by omega) (by omega); omega⟩
  | other him _ _ ih =>
    rw [rounds_cons, rounds_cons, List.length_cons]
    exact ⟨by omega, fun h1 h2 => by have := ih.2 (by omega) (by omega); omega⟩

/-! ### Without conflicts -/

/-- The headers of all articles of the files. -/
def filesHeaders (files : List NntpFile) : Multiset NntpHeader := (files.flatMap NntpFile.headers : List NntpHeader)

/-- A slot has one file at most for each key, and its files are well formed. -/
structure Clear (hasserver : UInt64 → Bool) (slot : MergeSlot) : Prop where
  increasing : (slotFiles hasserver slot).Pairwise fun f g => f.toNntpFileBase.lt g.toNntpFileBase = true
  wellFormed : ∀ f ∈ slotFiles hasserver slot, f.WellFormed

theorem filesHeaders_append {fs gs : List NntpFile} : filesHeaders (fs ++ gs) = filesHeaders fs + filesHeaders gs := by
  simp [filesHeaders]

theorem filesHeaders_cons {f : NntpFile} {fs : List NntpFile} :
    filesHeaders (f :: fs) = (f.headers : Multiset NntpHeader) + filesHeaders fs := by
  simp [filesHeaders]

theorem Advanced.clear {new : Option MergeSlot} (h : Advanced hasserver slot.reader new) (hslot : Clear hasserver slot)
    {s : MergeSlot} (hs : s ∈ new.toList) : Clear hasserver s ∧ slot.nfile.toNntpFileBase.lt s.nfile.toNntpFileBase = true := by
  have hfiles := h.mem hs
  obtain ⟨hhead, htail⟩ := List.pairwise_cons.mp hslot.increasing
  refine ⟨⟨by rw [hfiles]; exact htail, fun f hf => ?_⟩, ?_⟩
  · rw [hfiles] at hf
    exact hslot.wellFormed f (List.mem_cons_of_mem _ hf)
  · exact hhead _ (hfiles ▸ List.mem_cons_self)

theorem consistent_left {hs a b : Multiset NntpHeader} (h : NntpCache.Consistent (hs + (a + b))) :
    NntpCache.Consistent (a + hs) := h.mono (Multiset.le_iff_exists_add.mpr ⟨b, by ac_rfl⟩)

theorem consistent_right {hs a b c : Multiset NntpHeader} (h : NntpCache.Consistent (hs + (a + (b + c)))) :
    NntpCache.Consistent (a + hs + c) := h.mono (Multiset.le_iff_exists_add.mpr ⟨b, by ac_rfl⟩)

/-- Without conflicts the file that is passed on collects all headers of its key, and only files above it are left. -/
theorem Round.collects (h : Round hasserver m i slots mergef slots' mergef') : ∀ hs : Multiset NntpHeader, mergef.Collects hs →
    (∀ a ∈ hs, a.toNntpFileBase = mergef.toNntpFileBase) → (∀ slot ∈ slots, Clear hasserver slot) →
      (∀ slot ∈ slots, ¬slot.nfile.toNntpFileBase.lt mergef.toNntpFileBase = true) → OwnSlot m i slots mergef →
        NntpCache.Consistent (hs + filesHeaders (pending hasserver m i slots)) →
    ∃ hm : Multiset NntpHeader, mergef'.Collects hm ∧ (∀ a ∈ hm, a.toNntpFileBase = mergef.toNntpFileBase) ∧
      hm + filesHeaders (slots'.flatMap (slotFiles hasserver)) = hs + filesHeaders (pending hasserver m i slots) ∧
        ∀ slot ∈ slots', Clear hasserver slot ∧ mergef.toNntpFileBase.lt slot.nfile.toNntpFileBase = true := by
  induction h with
  | done => exact fun hs hf hkeys _ _ _ _ => ⟨hs, hf, hkeys, rfl, by simp⟩
  | @own slot slots slots' mergef mergef' new ha _ ih =>
    intro hs hf hkeys hclear hmin hown hcons
    obtain ⟨hslot, hslots⟩ := List.forall_mem_cons.mp hclear
    obtain ⟨-, hmin⟩ := List.forall_mem_cons.mp hmin
    rw [pending, if_pos rfl, filesHeaders_append] at hcons
    obtain ⟨hm, hm', hmkeys, heq, hleft⟩ := ih hs hf hkeys hslots hmin (hown.tail rfl) (hcons.mono (by
      rw [add_left_comm]
      exact Multiset.le_add_left _ _))
    refine ⟨hm, hm', hmkeys, ?_, List.forall_mem_append.mpr ⟨fun s hs => ?_, hleft⟩⟩
    · rw [pending, if_pos rfl, List.flatMap_append, ha.files, filesHeaders_append, filesHeaders_append, add_left_comm, heq,
        add_left_comm]
    · rw [← hown 0 slot rfl rfl]
      exact ha.clear hslot hs
  | @merged i slot slots slots' mergef mergef' new him hkey hparts ha _ ih =>
    intro hs hf hkeys hclear hmin hown hcons
    obtain ⟨hslot, hslots⟩ := List.forall_mem_cons.mp hclear
    obtain ⟨-, hmin⟩ := List.forall_mem_cons.mp hmin
    rw [pending, if_neg him, slotFiles, List.cons_append, filesHeaders_cons, filesHeaders_append] at hcons
    obtain ⟨-, hmerged⟩ := NntpFile.mergefile_collects hf (hslot.wellFormed _ List.mem_cons_self) hkey (consistent_left hcons)
    have hkeys' : ∀ a ∈ (slot.nfile.headers : Multiset NntpHeader) + hs,
        a.toNntpFileBase = mergef.toNntpFileBase := fun a ham =>
      (Multiset.mem_add.mp ham).elim (fun ham => (NntpFile.headers_key ham).trans hkey) (hkeys a)
    rw [NntpFile.mergefile_toNntpFileBase] at ih
    obtain ⟨hm, hm', hmkeys, heq, hleft⟩ := ih _ hmerged hkeys' hslots hmin (hown.tail NntpFile.mergefile_toNntpFileBase)
      (consistent_right hcons)
    refine ⟨hm, hm', hmkeys, ?_, List.forall_mem_append.mpr ⟨fun s hs => ?_, hleft⟩⟩
    · rw [pending, if_neg him, slotFiles, List.cons_append, filesHeaders_cons, filesHeaders_append, List.flatMap_append,
        ha.files, filesHeaders_append, add_left_comm, heq]
      ac_rfl
    · rw [← hkey]
      exact ha.clear hslot hs
  | @held i slot slots slots' mergef mergef' him hkey hparts _ ih =>
    intro hs hf hkeys hclear hmin hown hcons
    obtain ⟨hslot, hslots⟩ := List.forall_mem_cons.mp hclear
    rw [pending, if_neg him, slotFiles, List.cons_append, filesHeaders_cons, filesHeaders_append] at hcons
    obtain ⟨hnil, -⟩ := NntpFile.mergefile_collects hf (hslot.wellFormed _ List.mem_cons_self) hkey (consistent_left hcons)
    exact absurd hnil hparts
  | @other i slot slots slots' mergef mergef' him hkey _ ih =>
    intro hs hf hkeys hclear hmin hown hcons
    obtain ⟨hslot, hslots⟩ := List.forall_mem_cons.mp hclear
    obtain ⟨hslotmin, hmin⟩ := List.forall_mem_cons.mp hmin
    rw [pending, if_neg him, filesHeaders_append] at hcons
    obtain ⟨hm, hm', hmkeys, heq, hleft⟩ := ih hs hf hkeys hslots hmin (hown.tail rfl)
      (hcons.mono (Multiset.le_iff_exists_add.mpr ⟨filesHeaders (slotFiles hasserver slot), by ac_rfl⟩))
    refine ⟨hm, hm', hmkeys, ?_, List.forall_mem_cons.mpr ⟨⟨hslot, ?_⟩, hleft⟩⟩
    · rw [pending, if_neg him, List.flatMap_cons, filesHeaders_append, filesHeaders_append, add_left_comm, heq, add_left_comm]
    · by_contra hlt
      exact hkey (NntpFileBase.eq_of_not_lt hslotmin hlt)

/-! ### The loop -/

/-- No file is below the one that `min_element` finds, which is that of its slot. -/
theorem minElement_spec : ∀ (slots : List MergeSlot) (best : Nat × NntpFile) (i : Nat),
    (minElement best i slots = best ∨ ∃ j slot, slots[j]? = some slot ∧ minElement best i slots = (i + j, slot.nfile)) ∧
      ¬best.2.toNntpFileBase.lt (minElement best i slots).2.toNntpFileBase = true ∧
        ∀ slot ∈ slots, ¬slot.nfile.toNntpFileBase.lt (minElement best i slots).2.toNntpFileBase = true
  | [], best, i => ⟨Or.inl rfl, NntpFileBase.not_lt_self, by simp⟩
  | slot :: slots, best, i => by
    unfold minElement
    split
    · next hlt =>
      obtain ⟨hbest, hfirst, hall⟩ := minElement_spec slots (i, slot.nfile) (i + 1)
      refine ⟨Or.inr ?_, NntpFileBase.not_lt_trans hfirst (NntpFileBase.not_lt_of_lt hlt),
        List.forall_mem_cons.mpr ⟨hfirst, hall⟩⟩
      rcases hbest with hbest | ⟨j, s, hj, hbest⟩
      · exact ⟨0, slot, rfl, hbest⟩
      · exact ⟨j + 1, s, hj, by rw [hbest, Nat.add_right_comm, Nat.add_assoc]⟩
    · next hnot =>
      obtain ⟨hbest, hfirst, hall⟩ := minElement_spec slots best (i + 1)
      refine ⟨?_, hfirst, List.forall_mem_cons.mpr ⟨NntpFileBase.not_lt_trans hfirst hnot, hall⟩⟩
      rcases hbest with hbest | ⟨j, s, hj, hbest⟩
      · exact Or.inl hbest
      · exact Or.inr ⟨j + 1, s, hj, by rw [hbest, Nat.add_right_comm, Nat.add_assoc]⟩

/-- The slot that a round begins with. -/
theorem minElement_slot (slot : MergeSlot) (slots : List MergeSlot) :
    ∃ s, (slot :: slots)[(minElement (0, slot.nfile) 1 slots).1]? = some s ∧ s.nfile = (minElement (0, slot.nfile) 1 slots).2 ∧
      ∀ t ∈ slot :: slots, ¬t.nfile.toNntpFileBase.lt s.nfile.toNntpFileBase = true := by
  obtain ⟨hbest, hfirst, hall⟩ := minElement_spec slots (0, slot.nfile) 1
  have hmin : ∀ t ∈ slot :: slots, ¬t.nfile.toNntpFileBase.lt (minElement (0, slot.nfile) 1 slots).2.toNntpFileBase = true :=
    List.forall_mem_cons.mpr ⟨hfirst, hall⟩
  rcases hbest with hbest | ⟨j, s, hj, hbest⟩
  · rw [hbest] at hmin ⊢
    exact ⟨slot, rfl, rfl, hmin⟩
  · rw [hbest] at hmin ⊢
    exact ⟨s, by rw [Nat.add_comm]; exact hj, rfl, hmin⟩

/-- What the slots have besides the file of one of them. -/
theorem pending_slot : ∀ (slots : List MergeSlot) (i j : Nat) (slot : MergeSlot), slots[j]? = some slot →
    (slots.flatMap (slotFiles hasserver)).Perm (slot.nfile :: pending hasserver (i + j) i slots)
  | slot :: slots, i, 0, _, rfl => by
    have hlater : ∀ (slots : List MergeSlot) (k : Nat), i < k →
      pending hasserver i k slots = slots.flatMap (slotFiles hasserver) := by
      intro slots
      induction slots with
      | nil => exact fun _ _ => rfl
      | cons s slots ih =>
        intro k hk
        rw [pending, if_neg hk.ne', ih (k + 1) (by omega), List.flatMap_cons]
    rw [Nat.add_zero, pending, if_pos rfl, hlater slots (i + 1) (by omega), List.flatMap_cons, slotFiles, List.cons_append]
  | slot :: slots, i, j + 1, s, h => by
    have ih := pending_slot slots (i + 1) j s h
    rw [pending, if_neg (by omega), List.flatMap_cons, show i + (j + 1) = i + 1 + j by omega]
    exact (ih.append_left _).trans List.perm_middle

theorem ownSlot_of_getElem {j : Nat} (h : slots[j]? = some slot) : OwnSlot j 0 slots slot.nfile := by
  rintro k s hk rfl
  rw [Nat.zero_add] at h
  rw [Option.some.inj (hk.symm.trans h)]

/-- A file below the others, with the headers of its key. -/
theorem filesOf_cons {hm hr : Multiset NntpHeader} {f : NntpFile} {fs : List NntpFile} (hf : f.Collects hm)
    (hkeys : ∀ a ∈ hm, a.toNntpFileBase = f.toNntpFileBase) (hfs : NntpCache.FilesOf hr fs)
    (habove : ∀ a ∈ hr, f.toNntpFileBase.lt a.toNntpFileBase = true) : NntpCache.FilesOf (hm + hr) (f :: fs) := by
  have hne : ∀ a ∈ hr, a.toNntpFileBase ≠ f.toNntpFileBase := fun a ha heq =>
    absurd (heq ▸ habove a ha) NntpFileBase.not_lt_self
  have hlt : ∀ g ∈ fs, f.toNntpFileBase.lt g.toNntpFileBase = true := fun g hg => by
    obtain ⟨p, hp⟩ := List.exists_mem_of_ne_nil _ (hfs.collects g hg).wellFormed.nonempty
    obtain ⟨a, ha, hakey, -⟩ := (hfs.collects g hg).exists_header hp
    exact hakey ▸ habove a ha
  refine ⟨List.pairwise_cons.mpr ⟨hlt, hfs.increasing⟩, fun a ha => ?_, List.forall_mem_cons.mpr ⟨?_, fun g hg => ?_⟩⟩
  · rcases Multiset.mem_add.mp ha with ha | ha
    · exact ⟨f, List.mem_cons_self, (hkeys a ha).symm⟩
    · obtain ⟨g, hg, hgkey⟩ := hfs.keys a ha
      exact ⟨g, List.mem_cons_of_mem _ hg, hgkey⟩
  · rw [add_comm]
    exact NntpCache.collects_add_of_ne hf hne
  · refine NntpCache.collects_add_of_ne (hfs.collects g hg) fun a ha heq => ?_
    rw [hkeys a ha] at heq
    exact absurd (heq ▸ hlt g hg) NntpFileBase.not_lt_self

section
variable {S : Type} {getfile : NntpFile → MetaMidInfo → S → MetaMidInfo × S}

/-- What the loop passes on: files in order, none of them below a key that the slots are not below, with every article
    of the slots; and the files of the headers, when no parts conflict. -/
structure PassedOn (hasserver : UInt64 → Bool) (slots : List MergeSlot) (passed : List NntpFile) : Prop where
  sorted : NntpCache.Sorted passed
  above : ∀ k : NntpFileBase, (∀ slot ∈ slots, ¬slot.nfile.toNntpFileBase.lt k = true) →
    ∀ f ∈ passed, ¬f.toNntpFileBase.lt k = true
  articles : (NntpCache.articles passed).Perm (NntpCache.articles (slots.flatMap (slotFiles hasserver)))
  filesOf : (∀ slot ∈ slots, Clear hasserver slot) → NntpCache.Consistent (filesHeaders (slots.flatMap (slotFiles hasserver))) →
    NntpCache.FilesOf (filesHeaders (slots.flatMap (slotFiles hasserver))) passed

theorem passedOn_nil : PassedOn hasserver [] [] where
  sorted := List.Pairwise.nil
  above := by simp
  articles := List.Perm.refl _
  filesOf := fun _ _ => ⟨List.Pairwise.nil, by simp [filesHeaders], by simp⟩

/-- A round, and then the others. -/
theorem Round.passedOn {passed : List NntpFile} {j : Nat} (hs : ∀ slot ∈ slots, Ordered hasserver slot)
    (hslot : slots[j]? = some slot) (hmin : ∀ t ∈ slots, ¬t.nfile.toNntpFileBase.lt slot.nfile.toNntpFileBase = true)
    (h : Round hasserver j 0 slots slot.nfile slots' mergef') (hpassed : PassedOn hasserver slots' passed) :
    PassedOn hasserver slots (mergef' :: passed) := by
  have hmem := List.mem_of_getElem? hslot
  have hinc := (hs slot hmem).increasing slot.nfile List.mem_cons_self
  obtain ⟨hkey, -, harticles⟩ := h.articles hinc
  have hordered := h.ordered fun t ht => ⟨hs t ht, hmin t ht⟩
  have hpending := @pending_slot hasserver slots 0 j slot hslot
  rw [Nat.zero_add] at hpending
  have habove := hpassed.above slot.nfile.toNntpFileBase fun t ht => (hordered t ht).2
  refine ⟨List.pairwise_cons.mpr ⟨fun f hf => by rw [hkey]; exact habove f hf, hpassed.sorted⟩, fun k hk => ?_, ?_,
    fun hclear hcons => ?_⟩
  · have hslotk := hk slot hmem
    refine List.forall_mem_cons.mpr ⟨by rw [hkey]; exact hslotk, fun f hf => ?_⟩
    exact NntpFileBase.not_lt_trans hslotk (habove f hf)
  · rw [NntpCache.articles_cons]
    refine (hpassed.articles.append_left _).trans (harticles.trans ?_)
    have := hpending.flatMap_right NntpFile.articles
    rw [List.flatMap_cons] at this
    exact this.symm
  · have hall : filesHeaders (slots.flatMap (slotFiles hasserver)) =
        (slot.nfile.headers : Multiset NntpHeader) + filesHeaders (pending hasserver j 0 slots) := by
      rw [← filesHeaders_cons]
      exact Multiset.coe_eq_coe.mpr (hpending.flatMap_right NntpFile.headers)
    have hcollects := ((hclear slot hmem).wellFormed slot.nfile List.mem_cons_self).collects
    rw [hall] at hcons ⊢
    obtain ⟨hm, hm', hmkeys, heq, hleft⟩ := h.collects _ hcollects (fun a ha => NntpFile.headers_key ha) hclear hmin
      (ownSlot_of_getElem hslot) hcons
    rw [← heq] at hcons ⊢
    have hrest := hpassed.filesOf (fun t ht => (hleft t ht).1) (hcons.mono (Multiset.le_add_left _ _))
    refine filesOf_cons hm' (fun a ha => (hmkeys a ha).trans hkey.symm) hrest fun a ha => ?_
    obtain ⟨f, hf, ha⟩ := List.mem_flatMap.mp (Multiset.mem_coe.mp ha)
    obtain ⟨t, ht, hf⟩ := List.mem_flatMap.mp hf
    rw [hkey, NntpFile.headers_key ha]
    -- the files of a slot are not below its first
    rcases List.mem_cons.mp hf with rfl | hf'
    · exact (hleft t ht).2
    · have hlt := (List.pairwise_cons.mp (hleft t ht).1.increasing).1 f hf'
      rw [NntpFileBase.lt_iff] at *
      exact ((hleft t ht).2 |> NntpFileBase.lt_iff.mp).trans hlt

/-- The loop ends by itself, and its assertion holds. -/
theorem mergeLoop_spec : ∀ (fuel : Nat) (slots : List MergeSlot) (sh : ReaderShared) (s : S), rounds slots ≤ fuel →
    (∀ slot ∈ slots, Ordered hasserver slot) →
      ∃ run, mergeLoop hasserver now getfile fuel slots sh s = .ok run ∧ PassedOn hasserver slots run.passed
  | _, [], _, _, _, _ => ⟨_, by unfold mergeLoop; rfl, passedOn_nil⟩
  | 0, slot :: slots, _, _, hfuel, _ => by
    rw [rounds_cons] at hfuel
    omega
  | fuel + 1, slot :: slots, sh, s, hfuel, hs => by
    obtain ⟨t, ht, hfile, hmin⟩ := minElement_slot slot slots
    unfold mergeLoop
    generalize minElement (0, slot.nfile) 1 slots = found at *
    obtain ⟨m, mergef⟩ := found
    dsimp only at *
    subst hfile
    obtain ⟨slots', mergef', sh', hloop, hround⟩ := @mergeSlots_round hasserver now m (slot :: slots) 0 t.nfile sh
      (fun t ht => (hs t ht).sorted) (ownSlot_of_getElem ht)
    have hless := hround.rounds.2 (Nat.zero_le _) (by
      rw [Nat.zero_add]
      exact (List.getElem?_eq_some_iff.mp ht).1)
    rw [hloop]
    dsimp only
    obtain ⟨run, hrun, hpassed⟩ := mergeLoop_spec fuel slots' { sh' with midinfo := (getfile mergef' sh'.midinfo s).1 }
      (getfile mergef' sh'.midinfo s).2 (by omega) fun t ht' =>
        (hround.ordered (fun t ht => ⟨hs t ht, hmin t ht⟩) t ht').1
    rw [hrun]
    exact ⟨_, rfl, hround.passedOn hs ht hmin hpassed⟩

end
/-! ### The caches of the groups -/

/-- The files that a group's cache has: none without a cache, or when the cache has the order of another version. -/
def groupFiles (hasserver : UInt64 → Bool) (now : Int64) : Text × Option Text → List NntpFile
  | (_, none) => []
  | (group, some f) =>
    if (CacheReader.start hasserver f {} ∅ group).2.1.cacheSortver = cacheSortver then (readCache hasserver now f {} group).2.1
    else []

/-- What the cache's text says of its files. -/
def docFiles (hasserver : UInt64 → Bool) : Option CacheDoc → List NntpFile
  | none => []
  | some d => if d.sortver = cacheSortver then keptFiles hasserver d.records else []

theorem groupFiles_eq {group f : Text} :
    groupFiles hasserver now (group, some f) = docFiles hasserver (cacheDoc group (bufLines f)) := by
  have hstart := @start_spec hasserver f {} group
  have hread := @readCache_spec hasserver now f {} group
  unfold groupFiles
  dsimp only
  generalize readCache hasserver now f {} group = out at *
  cases hdoc : cacheDoc group (bufLines f) with
  | none =>
    rw [hdoc] at hread
    rw [hread.1]
    simp [docFiles]
  | some d =>
    rw [hdoc] at hread hstart
    obtain ⟨-, -, -, -, -, hver⟩ := hstart
    rw [hver, hread.1]
    rfl

/-- The slots at the start: the files of each cache that has some. -/
theorem openReaders_files : ∀ (groups : List (Text × Option Text)) (sh : ReaderShared),
    (openReaders hasserver now groups sh).1.map (slotFiles hasserver) =
      (groups.map (groupFiles hasserver now)).filter fun fs => !fs.isEmpty
  | [], _ => rfl
  | (group, none) :: groups, sh => by
    rw [List.map_cons, List.filter_cons_of_neg (by simp [groupFiles])]
    exact openReaders_files groups sh
  | (group, some f) :: groups, sh => by
    have hstart := @start_spec hasserver f sh.midinfo group
    rw [List.map_cons, groupFiles_eq]
    unfold openReaders
    generalize CacheReader.start hasserver f sh.midinfo ∅ group = out at *
    obtain ⟨thrown, r, serverInfo⟩ := out
    -- a cache without files leaves no slot
    have hnone : ∀ {fs : List NntpFile} (sh : ReaderShared), fs = [] →
      (openReaders hasserver now groups sh).1.map (slotFiles hasserver) =
        (fs :: groups.map (groupFiles hasserver now)).filter fun fs => !fs.isEmpty := by
      rintro fs sh rfl
      rw [List.filter_cons_of_neg (by simp)]
      exact openReaders_files groups sh
    cases hdoc : cacheDoc group (bufLines f) with
    | none =>
      rw [hdoc] at hstart
      obtain ⟨e, rfl⟩ := Option.isSome_iff_exists.mp hstart.1
      exact hnone _ rfl
    | some d =>
      rw [hdoc] at hstart
      obtain ⟨-, hbody, -, hgroup, -, hver⟩ := hstart
      obtain ⟨hrecords, -⟩ := CacheDoc.of_body hbody
      dsimp only at hrecords hgroup hver
      unfold docFiles
      dsimp only
      rw [hrecords]
      cases thrown with
      | some e => exact hnone _ (by simp [keptFiles])
      | none =>
        dsimp only
        by_cases hsort : d.sortver = cacheSortver
        · rw [if_pos hsort, if_neg (by simpa [CacheReader.withShared, hver] using hsort)]
          have hread := @readFile_rest hasserver now (r.withShared ⟨r.midinfo, sh.warned + r.warned⟩)
          have hrest : rest hasserver (r.withShared ⟨r.midinfo, sh.warned + r.warned⟩) =
              keptFiles hasserver (docRun group .file (bufLines r.f)).2 := by rw [← hgroup]; rfl
          generalize readFile hasserver now (r.withShared ⟨r.midinfo, sh.warned + r.warned⟩) = out at hread
          simp only [Option.isNone_none, if_true, ← hrest]
          obtain ⟨r', _ | _ | nf⟩ := out
          · exact hnone _ hread
          · exact hnone _ hread
          · rw [hread.1, List.filter_cons_of_pos (by simp), ← openReaders_files groups]
            rfl
        · rw [if_neg hsort, if_pos (by simpa [CacheReader.withShared, hver] using hsort)]
          exact hnone _ rfl

/-- The files that all groups have. -/
def allFiles (hasserver : UInt64 → Bool) (now : Int64) (groups : List (Text × Option Text)) : List NntpFile :=
  groups.flatMap (groupFiles hasserver now)

theorem openReaders_flatMap (groups : List (Text × Option Text)) (sh : ReaderShared) :
    (openReaders hasserver now groups sh).1.flatMap (slotFiles hasserver) = allFiles hasserver now groups := by
  have hdrop : ∀ l : List (List NntpFile), (l.filter fun fs => !fs.isEmpty).flatten = l.flatten := by
    intro l
    induction l with
    | nil => rfl
    | cons fs l ih => cases fs <;> simp [ih]
  rw [List.flatMap_def, openReaders_files, hdrop, ← List.flatMap_def]
  rfl

theorem openReaders_slot {groups : List (Text × Option Text)} {sh : ReaderShared}
    (hslot : slot ∈ (openReaders hasserver now groups sh).1) :
      ∃ g ∈ groups, groupFiles hasserver now g = slotFiles hasserver slot := by
  have hmem := List.mem_map_of_mem (f := slotFiles hasserver) hslot
  rw [openReaders_files] at hmem
  exact List.mem_map.mp (List.mem_filter.mp hmem).1

/-- Parts of one number in files of one key are of one message. -/
def NoConflicts (files : List NntpFile) : Prop := ∀ f ∈ files, ∀ g ∈ files, f.toNntpFileBase = g.toNntpFileBase →
  ∀ p ∈ f.parts, ∀ q ∈ g.parts, p.partnum = q.partnum → p.messageid = q.messageid

theorem NoConflicts.consistent {files : List NntpFile} (h : NoConflicts files) : NntpCache.Consistent (filesHeaders files) := by
  intro a ha b hb hkey hnum
  obtain ⟨f, hf, ha⟩ := List.mem_flatMap.mp (Multiset.mem_coe.mp ha)
  obtain ⟨g, hg, hb⟩ := List.mem_flatMap.mp (Multiset.mem_coe.mp hb)
  obtain ⟨p, hp, ha⟩ := List.mem_flatMap.mp ha
  obtain ⟨q, hq, hb⟩ := List.mem_flatMap.mp hb
  obtain ⟨sa, -, rfl⟩ := List.mem_map.mp ha
  obtain ⟨sb, -, rfl⟩ := List.mem_map.mp hb
  exact h f hf g hg hkey p hp q hq hnum

/-- Over caches whose files are in order, the loop ends, its assertion holds, it passes files on in order, and each
    article is in one of them. When each cache has one file for a key and no parts conflict, the files are those that
    `additem` makes of all headers. -/
theorem nntpCacheGetfiles_spec {S : Type} (getfile : NntpFile → MetaMidInfo → S → MetaMidInfo × S)
    (groups : List (Text × Option Text)) (midinfo : MetaMidInfo) (s : S)
    (hfiles : ∀ g ∈ groups, NntpCache.Sorted (groupFiles hasserver now g) ∧ ∀ f ∈ groupFiles hasserver now g, f.WellFormed) :
    ∃ run, (nntpCacheGetfiles hasserver now getfile groups midinfo s).2 = .ok run ∧ NntpCache.Sorted run.passed ∧
      (NntpCache.articles run.passed).Perm (NntpCache.articles (allFiles hasserver now groups)) ∧
        ((∀ g ∈ groups, (groupFiles hasserver now g).Pairwise fun f f' => f.toNntpFileBase ≠ f'.toNntpFileBase) →
          NoConflicts (allFiles hasserver now groups) →
            NntpCache.FilesOf (filesHeaders (allFiles hasserver now groups)) run.passed ∧
              ∀ hl : List (NntpHeader × Int64), (NntpCache.headers hl : Multiset NntpHeader) =
                filesHeaders (allFiles hasserver now groups) →
                List.Forall₂ NntpFile.Same run.passed (NntpCache.addAll hl).files) := by
  have hordered : ∀ slot ∈ (openReaders hasserver now groups { midinfo }).1, Ordered hasserver slot := fun slot hslot => by
    obtain ⟨g, hg, heq⟩ := openReaders_slot hslot
    obtain ⟨hsorted, hwf⟩ := hfiles g hg
    rw [heq] at hsorted hwf
    exact ⟨hsorted, fun f hf => (hwf f hf).increasing⟩
  obtain ⟨run, hrun, hpassed⟩ :=
    @mergeLoop_spec hasserver now S getfile _ _ (openReaders hasserver now groups { midinfo }).2.2 s
    le_rfl hordered
  refine ⟨run, hrun, hpassed.sorted, ?_, fun hstrict hconf => ?_⟩
  · rw [← openReaders_flatMap groups { midinfo }]
    exact hpassed.articles
  · have hcons := hconf.consistent
    have hclear : ∀ slot ∈ (openReaders hasserver now groups { midinfo }).1, Clear hasserver slot := fun slot hslot => by
      obtain ⟨g, hg, heq⟩ := openReaders_slot hslot
      obtain ⟨hsorted, hwf⟩ := hfiles g hg
      have hne := hstrict g hg
      rw [heq] at hsorted hwf hne
      refine ⟨hsorted.imp₂ (fun f f' hnot hne => ?_) hne, hwf⟩
      by_contra hlt
      exact hne (NntpFileBase.eq_of_not_lt hlt hnot)
    have hof := hpassed.filesOf hclear (by rwa [openReaders_flatMap])
    rw [openReaders_flatMap] at hof
    exact ⟨hof, fun hl heq => hof.same (heq ▸ NntpCache.addAll_filesOf hl (heq ▸ hcons))⟩

/-- The text of a cache of one file, which the header makes. -/
def sampleText (h : NntpHeader) : Text :=
    NntpCache.putLines (NntpCache.cacheLines { files := [NntpCache.newFile h 0], totalnum := 1 })

/-- Two caches with a part each of one file. -/
theorem nntpCacheGetfiles_sample : ∃ run, (nntpCacheGetfiles (fun _ => true) 0 (fun _ midinfo s => (midinfo, s + 1))
    [([], some (sampleText (NntpCache.partHeader 1 5 1 ['a']))),
      ([], some (sampleText (NntpCache.partHeader 1 7 2 ['b'])))] {} 0).2 =
      .ok run ∧ (NntpCache.articles run.passed).Perm [⟨1, [], 5, 0, 0⟩, ⟨1, [], 7, 0, 0⟩] := by
  have hone : groupFiles (fun _ => true) 0 ([], some (sampleText (NntpCache.partHeader 1 5 1 ['a']))) =
      [NntpCache.newFile (NntpCache.partHeader 1 5 1 ['a']) 0] := by decide +kernel
  have htwo : groupFiles (fun _ => true) 0 ([], some (sampleText (NntpCache.partHeader 1 7 2 ['b']))) =
      [NntpCache.newFile (NntpCache.partHeader 1 7 2 ['b']) 0] := by decide +kernel
  obtain ⟨run, hrun, -, hperm, -⟩ := @nntpCacheGetfiles_spec (fun _ => true) 0 Nat (fun _ midinfo s => (midinfo, s + 1))
    [([], some (sampleText (NntpCache.partHeader 1 5 1 ['a']))),
      ([], some (sampleText (NntpCache.partHeader 1 7 2 ['b'])))] {} 0 (by
      refine List.forall_mem_cons.mpr ⟨?_, List.forall_mem_singleton.mpr ?_⟩
      · rw [hone]
        exact ⟨List.pairwise_singleton _ _, List.forall_mem_singleton.mpr NntpCache.wellFormed_newFile⟩
      · rw [htwo]
        exact ⟨List.pairwise_singleton _ _, List.forall_mem_singleton.mpr NntpCache.wellFormed_newFile⟩)
  refine ⟨run, hrun, hperm.trans ?_⟩
  unfold allFiles
  rw [List.flatMap_cons, List.flatMap_singleton, hone, htwo]
  exact List.Perm.refl _

end Metagroup
end Nget

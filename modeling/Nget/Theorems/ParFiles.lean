import Nget.Par

/-! What the par handler does with the files it accepts. Each call moves files between its lists or to the queue and
    loses none of them: the stock, what the lists hold and what was handed out, is the same before and after. The files
    of a set's list can always be added again, since they match the expression that put them there and are no text
    posts. -/

namespace Nget

/-! ### The files of the lists -/

def ParSetInfo.files (p : ParSetInfo) : Multiset NntpFile := ↑p.serverpars + ↑p.serverpxxs

def ParXInfo.files (info : ParXInfo) : Multiset NntpFile :=
  ↑info.serverpars + ↑info.serverpxxs + ↑info.serverextradata + info.parsets.sumValues ParSetInfo.files

def ParInfo.files (p : ParInfo) : Multiset NntpFile := p.par1info.files + p.par2info.files

def ParHandler.files (h : ParHandler) : Multiset NntpFile := h.parinfos.sumValues ParInfo.files

/-- The files that a list of additions to the queue is of. -/
def filesOf (added : List NntpFileRetr) : Multiset NntpFile := ↑(added.map (·.file))

@[simp] theorem filesOf_nil : filesOf [] = 0 := rfl

@[simp] theorem filesOf_append {l l' : List NntpFileRetr} : filesOf (l ++ l') = filesOf l + filesOf l' := by
  simp [filesOf]

@[simp] theorem filesOf_map_retr {info : ParXInfo} {l : List NntpFile} : filesOf (l.map info.retr) = ↑l := by
  simp [filesOf, ParXInfo.retr, Function.comp_def]

section
variable {W : Type} {par : ParOutside W}

theorem insertServerFile_coe {f : NntpFile} {l : List NntpFile} :
    (↑(insertServerFile par f l) : Multiset NntpFile) = {f} + ↑l :=
  Multiset.coe_eq_coe.mpr SortedList.insertUpper_perm

theorem takeSmallest_coe : ∀ {l : List NntpFile} {r : NntpFile × List NntpFile}, takeSmallest par l = some r →
    (↑l : Multiset NntpFile) = {r.1} + ↑r.2
  | f :: fs, r, h => by
    unfold takeSmallest at h
    split at h
    · next hnone =>
      cases h
      cases fs with
      | nil => rfl
      | cons g gs =>
        unfold takeSmallest at hnone
        split at hnone <;> try split at hnone
        all_goals cases hnone
    · next g rest hsome =>
      have ih := takeSmallest_coe hsome
      rw [← Multiset.cons_coe, ← Multiset.singleton_add, ih]
      split at h <;> cases h
      · rw [← Multiset.cons_coe, ← Multiset.singleton_add]
        exact add_left_comm _ _ _
      · rw [ih]

theorem ParSetInfo.getInitialPars_files {p : ParSetInfo} :
    ↑(p.getInitialPars par).1 + (p.getInitialPars par).2.files = p.files := by
  unfold ParSetInfo.getInitialPars
  split
  · next hnil =>
    have hnil : p.serverpars = [] := List.isEmpty_iff.mp hnil
    split
    · next smallest rest h =>
      simp [ParSetInfo.files, hnil, takeSmallest_coe h]
    · simp [ParSetInfo.files]
  · simp [ParSetInfo.files]

/-! ### Adding a file -/

theorem ParXInfo.setParset_files {info : ParXInfo} {basename : Text} {p : ParSetInfo} :
    (info.setParset basename p).files + (info.parset basename).files = info.files + p.files := by
  have h := @SortedMap.sumValues_assign _ _ _ info.parsets basename p _ _ ParSetInfo.files
  have hparset : ((info.parsets.find? basename).map fun e => e.2.files).getD 0 = (info.parset basename).files := by
    unfold ParXInfo.parset
    cases info.parsets.find? basename <;> rfl
  rw [hparset] at h
  simp only [ParXInfo.files, ParXInfo.setParset, add_assoc, h]

theorem ParXInfo.setParset_add {info : ParXInfo} {basename : Text} {p : ParSetInfo} {f : NntpFile}
    (h : p.files = {f} + (info.parset basename).files) : (info.setParset basename p).files = {f} + info.files := by
  have hset := @ParXInfo.setParset_files info basename p
  rw [h, ← add_assoc, add_right_cancel_iff] at hset
  rw [hset, add_comm]

theorem ParSetInfo.addserverpar_files {p : ParSetInfo} {f : NntpFile} : (p.addserverpar par f).files = {f} + p.files := by
  simp only [ParSetInfo.files, ParSetInfo.addserverpar, insertServerFile_coe, add_assoc]

theorem ParSetInfo.addserverpxx_files {p : ParSetInfo} {f : NntpFile} : (p.addserverpxx par f).files = {f} + p.files := by
  simp only [ParSetInfo.files, ParSetInfo.addserverpxx, insertServerFile_coe]
  exact add_left_comm _ _ _

/-- The files of the sets' lists that a call may take out and add again are those of `Accepts`. -/
def ParXInfo.Matched (Accepts : NntpFile → Prop) (info : ParXInfo) : Prop :=
  ∀ e ∈ info.parsets, ∀ f ∈ e.2.serverpxxs, Accepts f

/-- What `maybe_add_parfile` does with a file that it takes: the file is put into one list, the local par files stay, and
    the files of the sets are still as `Accepts` says. -/
structure Takes (Accepts : NntpFile → Prop) (info : ParXInfo) (f : NntpFile) (info' : ParXInfo) : Prop where
  files : info'.files = {f} + info.files
  path : info'.path = info.path
  localpars : info'.localpars = info.localpars
  matched : info.Matched Accepts → info'.Matched Accepts

variable {Accepts : NntpFile → Prop} {info info' : ParXInfo} {f : NntpFile}

theorem ParXInfo.parset_pxxs {basename : Text} (h : info.Matched Accepts) :
    ∀ g ∈ (info.parset basename).serverpxxs, Accepts g := by
  unfold ParXInfo.parset
  cases hfind : info.parsets.find? basename with
  | none => simp
  | some e => exact h e (SortedMap.find?_eq_some_iff.mp hfind).1

theorem Takes.serverpars : Takes Accepts info f { info with serverpars := insertServerFile par f info.serverpars } where
  files := by simp only [ParXInfo.files, insertServerFile_coe, add_assoc]
  path := rfl
  localpars := rfl
  matched h := h

theorem Takes.serverpxxs : Takes Accepts info f { info with serverpxxs := insertServerFile par f info.serverpxxs } where
  files := by
    simp only [ParXInfo.files, insertServerFile_coe, add_assoc]
    exact add_left_comm _ _ _
  path := rfl
  localpars := rfl
  matched h := h

theorem Takes.serverextradata :
    Takes Accepts info f { info with serverextradata := insertServerFile par f info.serverextradata } where
  files := by
    simp only [ParXInfo.files, insertServerFile_coe, add_assoc]
    rw [add_left_comm (info.serverpxxs : Multiset NntpFile), add_left_comm (info.serverpars : Multiset NntpFile)]
  path := rfl
  localpars := rfl
  matched h := h

theorem Takes.parsetpar {basename : Text} :
    Takes Accepts info f (info.setParset basename ((info.parset basename).addserverpar par f)) where
  files := ParXInfo.setParset_add ParSetInfo.addserverpar_files
  path := rfl
  localpars := rfl
  matched h e he g hg := by
    rcases SortedMap.mem_assign.mp he with rfl | ⟨he, -⟩
    · exact ParXInfo.parset_pxxs h g hg
    · exact h e he g hg

theorem Takes.parsetpxx {basename : Text} (haccepts : Accepts f) :
    Takes Accepts info f (info.setParset basename ((info.parset basename).addserverpxx par f)) where
  files := ParXInfo.setParset_add ParSetInfo.addserverpxx_files
  path := rfl
  localpars := rfl
  matched h e he g hg := by
    rcases SortedMap.mem_assign.mp he with rfl | ⟨he, -⟩
    · rcases SortedList.mem_insertUpper.mp hg with rfl | hg
      · exact haccepts
      · exact ParXInfo.parset_pxxs h g hg
    · exact h e he g hg

/-- The files that a par1 set may have. -/
def Par1Accepts (par : ParOutside W) (f : NntpFile) : Prop :=
  f.maybeATextpost par.lines = false ∧ (par.parsubjRe f.subject).isSome

/-- The files that a par2 set may have. -/
def Par2Accepts (par : ParOutside W) (f : NntpFile) : Prop :=
  f.maybeATextpost par.lines = false ∧ (par.par2subjRe f.subject).isSome

theorem par1MaybeAddParfile_takes {wantIncomplete : Bool} (h : par1MaybeAddParfile par info f wantIncomplete = some info') :
    Takes (Par1Accepts par) info f info' := by
  unfold par1MaybeAddParfile at h
  split at h
  · cases h
  · next hpost =>
    split at h
    · cases h
    · split at h
      · split at h <;> cases h
        · exact Takes.serverpars
        · exact Takes.serverpxxs
      · split at h
        · next basename ext hre =>
          dsimp only at h
          split at h <;> cases h
          · exact Takes.parsetpar
          · exact Takes.parsetpxx ⟨by simpa using hpost, by simp [hre]⟩
        · cases h

theorem par2MaybeAddParfile_takes {wantIncomplete : Bool} (h : par2MaybeAddParfile par info f wantIncomplete = some info') :
    Takes (Par2Accepts par) info f info' := by
  unfold par2MaybeAddParfile at h
  split at h
  · cases h
  · next hpost =>
    split at h
    · split at h <;> cases h
      · exact Takes.serverpars
      · exact Takes.serverpxxs
    · split at h
      · next basename hre =>
        split at h <;> cases h
        · exact Takes.parsetpxx ⟨by simpa using hpost, by simp [hre]⟩
        · exact Takes.parsetpar
      · split at h
        · cases h
          exact Takes.serverextradata
        · cases h

/-- A file that a par1 set has is accepted again. -/
theorem par1MaybeAddParfile_readd (h : Par1Accepts par f) : ∃ info', par1MaybeAddParfile par info f true = some info' := by
  unfold par1MaybeAddParfile
  simp only [h.1, Bool.false_eq_true, if_false, Bool.not_true, Bool.false_and]
  split
  · split <;> exact ⟨_, rfl⟩
  · obtain ⟨r, hr⟩ := Option.isSome_iff_exists.mp h.2
    simp only [hr]
    split <;> exact ⟨_, rfl⟩

theorem par2MaybeAddParfile_readd (h : Par2Accepts par f) : ∃ info', par2MaybeAddParfile par info f true = some info' := by
  unfold par2MaybeAddParfile
  simp only [h.1, Bool.false_eq_true, if_false]
  split
  · split <;> exact ⟨_, rfl⟩
  · obtain ⟨r, hr⟩ := Option.isSome_iff_exists.mp h.2
    simp only [hr]
    split <;> exact ⟨_, rfl⟩

/-! ### Taking files out -/

theorem sumValues_mapValues {p : ParSetInfo → ParSetInfo} {out : ParSetInfo → List NntpFile} {m : SortedMap Text ParSetInfo}
    (h : ∀ s, (↑(out s) : Multiset NntpFile) + (p s).files = s.files) :
    ↑(m.entries.flatMap fun e => out e.2) + (m.mapValues p).sumValues ParSetInfo.files = m.sumValues ParSetInfo.files := by
  unfold SortedMap.sumValues SortedMap.mapValues
  dsimp only
  induction m.entries with
  | nil => rfl
  | cons e es ih =>
    simp only [List.flatMap_cons, List.map_cons, List.sum_cons, ← Multiset.coe_add]
    rw [← h e.2, ← ih]
    abel

theorem getInitialPars_files :
    ↑(info.getInitialPars par).1 + (info.getInitialPars par).2.files = info.files := by
  have hsets := @sumValues_mapValues (fun p => (p.getInitialPars par).2) (fun p => (p.getInitialPars par).1) info.parsets
    fun s => ParSetInfo.getInitialPars_files
  simp only [ParXInfo.getInitialPars, ParXInfo.files, ← Multiset.coe_add, Multiset.coe_nil, zero_add]
  rw [← hsets]
  abel

theorem releaseUnclaimedPxxs_files : ↑info.releaseUnclaimedPxxs.1 + info.releaseUnclaimedPxxs.2.files = info.files := by
  have hsets := @sumValues_mapValues (fun p => { p with serverpxxs := [] }) (fun p => p.serverpxxs) info.parsets
    fun s => by simp only [ParSetInfo.files, Multiset.coe_nil, add_zero, add_comm]
  simp only [ParXInfo.releaseUnclaimedPxxs, ParXInfo.files]
  rw [← hsets]
  abel

theorem getInitialPars_matched (h : info.Matched Accepts) : (info.getInitialPars par).2.Matched Accepts := by
  intro e he f hf
  obtain ⟨e, hmem, rfl⟩ := List.mem_map.mp he
  refine h e hmem f ?_
  dsimp only [ParSetInfo.getInitialPars] at hf
  split at hf
  · split at hf
    · next smallest rest hsmall =>
      have hcoe := takeSmallest_coe hsmall
      have hmem : f ∈ (↑e.2.serverpxxs : Multiset NntpFile) := by
        rw [hcoe]
        exact Multiset.mem_add.mpr (Or.inr (Multiset.mem_coe.mpr hf))
      exact Multiset.mem_coe.mp hmem
    · exact hf
  · exact hf

theorem releaseUnclaimedPxxs_matched : info.releaseUnclaimedPxxs.2.Matched Accepts := by
  intro e he f hf
  obtain ⟨e, -, rfl⟩ := List.mem_map.mp he
  cases hf

theorem mem_releaseUnclaimedPxxs (h : info.Matched Accepts) : ∀ f ∈ info.releaseUnclaimedPxxs.1, Accepts f := by
  intro f hf
  obtain ⟨e, he, hf⟩ := List.mem_flatMap.mp hf
  exact h e he f hf

/-- Adding files that are all accepted, one after the other, succeeds. -/
theorem readd_all {maybeAddParfile : ParXInfo → NntpFile → Bool → Option ParXInfo}
    (htakes : ∀ info f info', maybeAddParfile info f true = some info' → Takes Accepts info f info')
    (hreadd : ∀ info f, Accepts f → ∃ info', maybeAddParfile info f true = some info') :
    ∀ (fs : List NntpFile) (info : ParXInfo), (∀ f ∈ fs, Accepts f) → info.Matched Accepts →
      ∃ info', fs.foldlM (fun info f => maybeAddParfile info f true) info = some info' ∧
        info'.files = ↑fs + info.files ∧ info'.path = info.path ∧ info'.localpars = info.localpars ∧ info'.Matched Accepts
  | [], info, _, hmatched => ⟨info, rfl, by simp, rfl, rfl, hmatched⟩
  | f :: fs, info, hfs, hmatched => by
    rw [List.forall_mem_cons] at hfs
    obtain ⟨info1, h1⟩ := hreadd info f hfs.1
    have t := htakes _ _ _ h1
    obtain ⟨info2, h2, hfiles, hpath, hlocal, hmatched2⟩ := readd_all htakes hreadd fs info1 hfs.2 (t.matched hmatched)
    refine ⟨info2, ?_, ?_, hpath.trans t.path, hlocal.trans t.localpars, hmatched2⟩
    · rw [List.foldlM_cons, h1]
      exact h2
    · rw [hfiles, t.files, ← Multiset.cons_coe, ← Multiset.singleton_add]
      abel

/-! ### More files of a set -/

theorem takePxxs_coe {num : Int} {basenames : List Text} : ∀ (fs : List NntpFile) (cur : Int) (havevols : List UInt32),
    (↑(takePxxs par num basenames fs cur havevols).1 : Multiset NntpFile) +
      ↑(takePxxs par num basenames fs cur havevols).2 = ↑fs
  | [], _, _ => rfl
  | f :: fs, cur, havevols => by
    unfold takePxxs
    split
    · split
      · next vol _ =>
        have ih := @takePxxs_coe num basenames fs (cur + 1) (vol :: havevols)
        simp only [← Multiset.cons_coe, ← ih, Multiset.cons_add]
      · have ih := @takePxxs_coe num basenames fs cur havevols
        simp only [← Multiset.cons_coe, ← ih, Multiset.add_cons]
    · simp

theorem takeExtradata_coe {num : Int} {par2 : Par2Repairer} : ∀ (fs : List NntpFile) (added : Int),
    (↑(takeExtradata par num par2 fs added).2.1 : Multiset NntpFile) + ↑(takeExtradata par num par2 fs added).2.2 = ↑fs
  | [], _ => rfl
  | f :: fs, added => by
    unfold takeExtradata
    split
    · split
      · next sourcefile _ =>
        have ih := @takeExtradata_coe num par2 fs (added + max 1 (par.completeBlocks sourcefile.blockCount f))
        simp only [← Multiset.cons_coe, ← ih, Multiset.cons_add]
      · have ih := @takeExtradata_coe num par2 fs added
        simp only [← Multiset.cons_coe, ← ih, Multiset.add_cons]
    · simp

theorem filterMap_range_getElem? {α : Type} : ∀ l : List α, (List.range l.length).filterMap (l[·]?) = l
  | [] => rfl
  | a :: l => by
    have hzero : (a :: l)[0]? = some a := rfl
    rw [List.length_cons, List.range_succ_eq_map, List.filterMap_cons_some hzero, List.filterMap_map]
    exact congrArg (a :: ·) (filterMap_range_getElem? l)

/-- The files at some places and the files at the others are all files. -/
theorem eraseItems_coe {l : List NntpFile} {items : List Nat} (hitems : items.Nodup) (hlt : ∀ i ∈ items, i < l.length) :
    (↑(items.filterMap (l[·]?)) : Multiset NntpFile) + ↑(eraseItems l items) = ↑l := by
  have hperm : items.Perm ((List.range l.length).filter (· ∈ items)) := by
    refine (List.perm_ext_iff_of_nodup hitems (List.nodup_range.filter _)).mpr fun i => ?_
    simp only [List.mem_filter, List.mem_range, decide_eq_true_eq]
    exact ⟨fun hi => ⟨hlt i hi, hi⟩, fun hi => hi.2⟩
  have hsplit : ((List.range l.length).filter (· ∈ items) ++ (List.range l.length).filter (· ∉ items)).Perm
      (List.range l.length) := by
    have := List.filter_append_perm (fun i => decide (i ∈ items)) (List.range l.length)
    simpa only [decide_not] using this
  unfold eraseItems
  rw [Multiset.coe_add, Multiset.coe_eq_coe]
  have hall := ((hperm.append_right _).trans hsplit).filterMap (l[·]?)
  rw [List.filterMap_append, filterMap_range_getElem?] at hall
  exact hall

/-- What a call that gets more files of a set does: files go from its lists to the queue, each once where `One` holds. -/
structure Gets (One : Prop) (info : ParXInfo) (files : List NntpFile) (info' : ParXInfo) : Prop where
  files : One → ↑files + info'.files = info.files
  path : info'.path = info.path
  parsets : info'.parsets = info.parsets
  localpars : info'.localpars = info.localpars

variable {One : Prop}

theorem Gets.refl : Gets One info [] info := ⟨fun _ => by simp, rfl, rfl, rfl⟩

theorem getPxxs_gets {num : Int} {havevols : List UInt32} {key : Text} :
    Gets One info (getPxxs par num havevols key info).2.1 (getPxxs par num havevols key info).2.2 := by
  unfold getPxxs
  dsimp only
  split
  · exact Gets.refl
  · refine ⟨fun _ => ?_, rfl, rfl, rfl⟩
    have htake := @takePxxs_coe _ par num (info.localpars.basenames key) info.serverpxxs 0 havevols
    simp only [ParXInfo.files]
    rw [← htake]
    abel

theorem getExtradata_gets {num : Int} {par2 : Par2Repairer} :
    ∃ kept, (getExtradata par num par2 info).2.2 = { info with serverextradata := kept } ∧
      Gets One info (getExtradata par num par2 info).2.1 { info with serverextradata := kept } := by
  unfold getExtradata
  dsimp only
  split
  · exact ⟨info.serverextradata, rfl, Gets.refl⟩
  · refine ⟨_, rfl, fun _ => ?_, rfl, rfl, rfl⟩
    have htake := @takeExtradata_coe _ par num par2 info.serverextradata 0
    simp only [ParXInfo.files]
    rw [← htake]
    abel

/-! ### The candidates -/

/-- The basenames whose expression matches the subject of the file. -/
def matchingBasenames (par : ParOutside W) (basenames : List Text) (f : NntpFile) : List Text :=
  basenames.filter fun basename => (par.subjmatchPar2 basename f.subject).isSome

theorem fileCandidates_item {havepackets : List UInt32} {item : Nat} : ∀ (basenames : List Text) (availpackets : List UInt32),
    ∀ c ∈ (fileCandidates par havepackets item f basenames availpackets).1, c.item = item
  | [], _, c, hc => by cases hc
  | basename :: basenames, availpackets, c, hc => by
    unfold fileCandidates at hc
    split at hc
    · dsimp only at hc
      split at hc
      · exact fileCandidates_item basenames _ c hc
      · rcases List.mem_cons.mp hc with rfl | hc
        · rfl
        · exact fileCandidates_item basenames _ c hc
    · exact fileCandidates_item basenames _ c hc

/-- The ranges of packets that the expressions of a set match in the subject of a file. -/
def packetRanges (subjmatch : Text → Text → Option (Text × Text × Text)) (basenames : List Text) (f : NntpFile) :
    List (List UInt32) :=
  basenames.filterMap fun basename => (subjmatch basename f.subject).map fun (_, first, count) =>
    packetRange (CString.atoi first).toUInt32 ((CString.atoi count).toUInt32 + (CString.atoi first).toUInt32)

/-- How many of the ranges have a packet that neither is held nor is in the ranges before. -/
def newRanges : List UInt32 → List (List UInt32) → Nat
  | _, [] => 0
  | held, range :: ranges => (if range ⊆ held then 0 else 1) + newRanges (held ++ range) ranges

/-- At most one range of each file has a packet that neither is held nor is in the ranges of the files before. -/
def OfferedOnce (ranges : NntpFile → List (List UInt32)) : List UInt32 → List NntpFile → Prop
  | _, [] => True
  | held, f :: fs => newRanges held (ranges f) ≤ 1 ∧ OfferedOnce ranges (held ++ (ranges f).flatten) fs

theorem fileCandidates_newRanges {havepackets : List UInt32} {item : Nat} {f : NntpFile} :
    ∀ (basenames : List Text) (availpackets held : List UInt32),
      (∀ p, p ∈ held ↔ p ∈ havepackets ∨ p ∈ availpackets) →
      (fileCandidates par havepackets item f basenames availpackets).1.length =
          newRanges held (packetRanges par.subjmatchPar2 basenames f) ∧
        ∀ p, p ∈ held ++ (packetRanges par.subjmatchPar2 basenames f).flatten ↔
          p ∈ havepackets ∨ p ∈ (fileCandidates par havepackets item f basenames availpackets).2
  | [], availpackets, held, h => ⟨rfl, by simpa [packetRanges, fileCandidates] using h⟩
  | basename :: basenames, availpackets, held, h => by
    unfold fileCandidates packetRanges
    split
    · next vol first count hmatch =>
      rw [List.filterMap_cons_some (by rw [hmatch]; rfl)]
      dsimp only
      generalize packetRange (CString.atoi first).toUInt32 ((CString.atoi count).toUInt32 +
        (CString.atoi first).toUInt32) = range
      have hheld : ∀ p, p ∈ held ++ range ↔
          p ∈ havepackets ∨ p ∈ availpackets ++ range.filter fun p => p ∉ havepackets && p ∉ availpackets := by
        intro p
        simp only [List.mem_append, List.mem_filter, h p, Bool.and_eq_true, decide_eq_true_eq]
        tauto
      have hnew : (range.filter fun p => p ∉ havepackets && p ∉ availpackets).isEmpty = true ↔ range ⊆ held := by
        simp only [List.isEmpty_iff, List.filter_eq_nil_iff, Bool.and_eq_true, decide_eq_true_eq, List.subset_def, h]
        exact forall₂_congr fun p _ => by tauto
      obtain ⟨hlength, hmem⟩ := fileCandidates_newRanges basenames _ (held ++ range) hheld
      rw [List.flatten_cons, ← List.append_assoc, newRanges]
      split
      · next hempty =>
        rw [if_pos (hnew.mp hempty), Nat.zero_add]
        exact ⟨hlength, hmem⟩
      · next hempty =>
        rw [if_neg (hempty ∘ hnew.mpr), List.length_cons, Nat.add_comm]
        exact ⟨congrArg (1 + ·) hlength, hmem⟩
    · next hmatch =>
      rw [List.filterMap_cons_none (by rw [hmatch]; rfl)]
      exact fileCandidates_newRanges basenames availpackets held h

theorem candidates_offeredOnce {havepackets : List UInt32} {basenames : List Text} :
    ∀ (item : Nat) (fs : List NntpFile) (availpackets held : List UInt32),
      (∀ p, p ∈ held ↔ p ∈ havepackets ∨ p ∈ availpackets) →
      (((candidates par havepackets basenames item fs availpackets).1.map (·.item)).Nodup ↔
        OfferedOnce (packetRanges par.subjmatchPar2 basenames) held fs) ∧
      ∀ c ∈ (candidates par havepackets basenames item fs availpackets).1, item ≤ c.item ∧ c.item < item + fs.length
  | item, [], _, _, _ => by simp [candidates, OfferedOnce]
  | item, f :: fs, availpackets, held, h => by
    unfold candidates OfferedOnce
    dsimp only
    have hitem := @fileCandidates_item _ par f havepackets item basenames availpackets
    obtain ⟨hlength, hheld⟩ := @fileCandidates_newRanges _ par havepackets item f basenames availpackets held h
    generalize fileCandidates par havepackets item f basenames availpackets = here at hitem hlength hheld ⊢
    obtain ⟨hnodup, hrange⟩ := candidates_offeredOnce (item + 1) fs here.2 _ hheld
    generalize candidates par havepackets basenames (item + 1) fs here.2 = later at hnodup hrange ⊢
    have hhere : here.1.map (·.item) = List.replicate here.1.length item := List.eq_replicate_iff.mpr
      ⟨by simp, List.forall_mem_map.mpr hitem⟩
    constructor
    · rw [List.map_append, List.nodup_append, hnodup, hhere, List.nodup_replicate, hlength]
      refine and_congr_right fun _ => and_iff_left_iff_imp.mpr fun _ i hi j hj => ?_
      obtain ⟨d, hd, rfl⟩ := List.mem_map.mp hj
      have := hrange d hd
      rw [List.eq_of_mem_replicate hi]
      omega
    · intro c hc
      rw [List.length_cons]
      rcases List.mem_append.mp hc with hc | hc
      · have := hitem c hc
        omega
      · have := hrange c hc
        omega

theorem newRanges_le : ∀ (held : List UInt32) (ranges : List (List UInt32)), newRanges held ranges ≤ ranges.length
  | _, [] => le_rfl
  | held, range :: ranges => by
    have ih := newRanges_le (held ++ range) ranges
    rw [newRanges, List.length_cons]
    split <;> omega

theorem OfferedOnce.of_length {ranges : NntpFile → List (List UInt32)} : ∀ (held : List UInt32) (fs : List NntpFile),
    (∀ f ∈ fs, (ranges f).length ≤ 1) → OfferedOnce ranges held fs
  | _, [], _ => trivial
  | held, f :: fs, hone => by
    rw [List.forall_mem_cons] at hone
    exact ⟨(newRanges_le held (ranges f)).trans hone.1, OfferedOnce.of_length _ fs hone.2⟩

theorem packetRanges_length {basenames : List Text} :
    (packetRanges par.subjmatchPar2 basenames f).length = (matchingBasenames par basenames f).length := by
  unfold packetRanges matchingBasenames
  rw [List.length_filterMap_eq_countP, List.countP_eq_length_filter]
  simp

/-- The candidates that the knapsack picks are some of them, in their order. -/
theorem results_sublist {cs : List Candidate} {values sizes : List Int} {num : Int} (hlen : values.length = cs.length) :
    ((knapsackMinsize values sizes num).2.filterMap (cs[·]?)).Sublist cs := by
  have h := (@List.filter_sublist _ (fun i => decide (i ∉ (if 0 ≤ values.sum - num then
    knapsackFilled sizes values (values.sum - num).toNat else ⟨0, [], 0⟩).result)) (List.range values.length)).filterMap (cs[·]?)
  rw [hlen, filterMap_range_getElem?] at h
  unfold knapsackMinsize
  rw [hlen]
  exact h

theorem getRecoverypackets_gets {num : Int} {havepackets : List UInt32} {key : Text} {par2 : Par2Repairer}
    (hone : One → ∀ f ∈ info.files, (matchingBasenames par (info.localpars.basenames key) f).length ≤ 1) :
    Gets One info (getRecoverypackets par num havepackets key par2 info).2.1
      (getRecoverypackets par num havepackets key par2 info).2.2 := by
  have hpxxs : ∀ f ∈ info.serverpxxs, f ∈ info.files := fun f hf => by simp [ParXInfo.files, hf]
  obtain ⟨honce, hrange⟩ := @candidates_offeredOnce _ par havepackets (info.localpars.basenames key) 0 info.serverpxxs []
    havepackets (by simp)
  -- Where a file's subject matches one basename at most, no file is a candidate twice.
  have hitems := fun h1 => And.intro
    (honce.mpr (.of_length _ _ fun f hf => packetRanges_length.trans_le (hone h1 f (hpxxs f hf))))
    hrange
  unfold getRecoverypackets
  generalize candidates par havepackets (info.localpars.basenames key) 0 info.serverpxxs [] = cs at hitems ⊢
  obtain ⟨cs, availpackets⟩ := cs
  dsimp only at hitems ⊢
  -- The extra data that is got first.
  obtain ⟨kept, hinfo, hgets⟩ : ∃ kept, (if (availpackets.length : Int) < num then
      getExtradata par (num - availpackets.length) par2 info else (0, [], info)).2.2 = { info with serverextradata := kept } ∧
      Gets One info (if (availpackets.length : Int) < num then
        getExtradata par (num - availpackets.length) par2 info else (0, [], info)).2.1
          { info with serverextradata := kept } := by
    split
    · exact getExtradata_gets
    · exact ⟨info.serverextradata, rfl, Gets.refl⟩
  generalize (if (availpackets.length : Int) < num then
    getExtradata par (num - availpackets.length) par2 info else (0, [], info)) = extra at hinfo hgets ⊢
  obtain ⟨r, extradata, info1⟩ := extra
  dsimp only at hinfo hgets ⊢
  rw [hinfo]
  split
  · exact hgets
  · split
    · exact hgets
    · have hsub := @results_sublist cs (cs.map (·.value)) (cs.map (·.size)) num (by simp)
      generalize (knapsackMinsize (cs.map (·.value)) (cs.map (·.size)) num).2.filterMap (cs[·]?) = results at hsub ⊢
      refine ⟨fun h1 => ?_, rfl, rfl, rfl⟩
      obtain ⟨hnodup, hrange⟩ := hitems h1
      have herase := @eraseItems_coe info.serverpxxs (results.map (·.item)) (hnodup.sublist (hsub.map _)) fun i hi => by
        obtain ⟨c, hc, rfl⟩ := List.mem_map.mp hi
        simpa using (hrange c (hsub.subset hc)).2
      rw [List.filterMap_map] at herase
      have hfiles := hgets.files h1
      simp only [ParXInfo.files] at hfiles ⊢
      rw [← hfiles, ← herase, ← Multiset.coe_add]
      dsimp only [Function.comp_def]
      abel

/-! ### The local par files -/

theorem LocalParFiles.mem_basenames {l : LocalParFiles} {key basename : Text} :
    basename ∈ l.basenames key ↔ (key, basename) ∈ l.subjmatches := by
  unfold LocalParFiles.basenames
  constructor
  · intro h
    obtain ⟨⟨k, b⟩, he, rfl⟩ := List.mem_map.mp h
    obtain ⟨hmem, hk⟩ := List.mem_filter.mp he
    rw [decide_eq_true_eq] at hk
    exact hk ▸ hmem
  · intro h
    exact List.mem_map.mpr ⟨(key, basename), List.mem_filter.mpr ⟨h, by simp⟩, rfl⟩

/-- Every set that has a file has a basename. -/
def LocalParFiles.Named (l : LocalParFiles) : Prop := ∀ e ∈ l.basefilenames, ∃ basename, basename ∈ l.basenames e.1

theorem LocalParFiles.addNames_named {basenameOf : Text → Option Text} {getSethash : Text → W → Option Text × W} {path : Text} :
    ∀ (names : List Text) (l : LocalParFiles) (w : W), l.Named → (addNames basenameOf getSethash path names l w).1.Named
  | [], _, _, h => h
  | name :: names, l, w, h => by
    unfold addNames
    split
    · exact addNames_named names l w h
    · next basename _ =>
      split
      · next sethash w' _ =>
        refine addNames_named names _ w' fun e he => ?_
        -- What was a subject match stays one, and the set of the new name has the name's basename.
        have hmono : ∀ k b, (k, b) ∈ l.subjmatches ∨ k = sethash ∧ b = basename →
            b ∈ ((l.pushBasefilename sethash name).addsubjmatch sethash basename).basenames k := by
          intro k b hkb
          rw [mem_basenames]
          unfold addsubjmatch pushBasefilename
          split
          · next hmem =>
            rcases hkb with hkb | ⟨rfl, rfl⟩
            · exact hkb
            · exact hmem
          · refine SortedList.mem_insertUpper.mpr ?_
            rcases hkb with hkb | ⟨rfl, rfl⟩
            · exact Or.inr hkb
            · exact Or.inl rfl
        have hfiles : ((l.pushBasefilename sethash name).addsubjmatch sethash basename).basefilenames =
            (l.pushBasefilename sethash name).basefilenames := by
          unfold addsubjmatch
          split <;> rfl
        rw [hfiles] at he
        rcases SortedMap.mem_assign.mp he with rfl | ⟨he, -⟩
        · exact ⟨basename, hmono _ _ (Or.inr ⟨rfl, rfl⟩)⟩
        · obtain ⟨b, hb⟩ := h e he
          exact ⟨b, hmono _ _ (Or.inl (mem_basenames.mp hb))⟩
      · exact addNames_named names _ _ h

theorem LocalParFiles.addfrompath_named {basenameOf : Text → Option Text} {getSethash : Text → W → Option Text × W}
    {path : Text} {w w' : W} {l : LocalParFiles} (h : addfrompath par basenameOf getSethash path w = (.ok l, w')) :
      l.Named := by
  unfold addfrompath at h
  split at h
  · cases h
  · next names w1 _ =>
    have hempty : LocalParFiles.Named {} := fun e he => absurd he SortedMap.not_mem_empty
    cases h
    exact addNames_named names {} w1 hempty

/-! ### A call -/

/-- From `st` to `st'` files were handed to the queue, each for one of the paths that `paths` says, and the paths stay.
    Where `One` holds, the files come off the lists, and no other file leaves them. -/
def Moved {σ : Type} (One : Prop) (files : σ → Multiset NntpFile) (paths : σ → Text → Prop) (st st' : ParCall σ W) : Prop :=
  ∃ new, st'.added = st.added ++ new ∧ (One → filesOf new + files st'.info = files st.info) ∧
    (∀ fr ∈ new, paths st.info fr.path) ∧ ∀ path, paths st'.info path ↔ paths st.info path

section
variable {σ : Type} {files : σ → Multiset NntpFile} {paths : σ → Text → Prop} {st st' st'' : ParCall σ W}

theorem Moved.refl (hadded : st'.added = st.added) (hfiles : files st'.info = files st.info)
    (hpaths : ∀ path, paths st'.info path ↔ paths st.info path) : Moved One files paths st st' :=
  ⟨[], by simp [hadded], fun _ => by simp [hfiles], nofun, hpaths⟩

theorem Moved.trans (h : Moved One files paths st st') (h' : Moved One files paths st' st'') :
    Moved One files paths st st'' := by
  obtain ⟨new, hadded, hfiles, hnew, hpaths⟩ := h
  obtain ⟨new', hadded', hfiles', hnew', hpaths'⟩ := h'
  refine ⟨new ++ new', by rw [hadded', hadded, List.append_assoc], fun h1 => ?_, fun fr hfr => ?_, fun path => ?_⟩
  · rw [filesOf_append, add_assoc, hfiles' h1, hfiles h1]
  · rcases List.mem_append.mp hfr with hfr | hfr
    · exact hnew fr hfr
    · exact (hpaths fr.path).mp (hnew' fr hfr)
  · exact (hpaths' path).trans (hpaths path)

theorem Moved.mem (h : Moved One files paths st st') (h1 : One) {f : NntpFile} (hf : f ∈ files st'.info) :
    f ∈ files st.info := by
  obtain ⟨new, -, hfiles, -, -⟩ := h
  exact hfiles h1 ▸ Multiset.mem_add.mpr (Or.inr hf)

end

/-- The path of what is known of a path. -/
def ParXInfo.At (info : ParXInfo) (path : Text) : Prop := path = info.path

theorem Moved.map_retr {st : ParCall ParXInfo W} {info : ParXInfo} {files : List NntpFile} {w : W}
    (hfiles : One → ↑files + info.files = st.info.files) (hpath : info.path = st.info.path) :
    Moved One ParXInfo.files ParXInfo.At st ⟨info, st.added ++ files.map info.retr, w⟩ := by
  refine ⟨_, rfl, fun h1 => by rw [filesOf_map_retr]; exact hfiles h1, fun fr hfr => ?_, fun path => ?_⟩
  · obtain ⟨f, -, rfl⟩ := List.mem_map.mp hfr
    exact hpath
  · simp only [ParXInfo.At, hpath]

/-- A call that ends so: it moved files, the sets' files are still as `Accepts` says, and it stops only where something
    outside throws. -/
structure CallSound {α : Type} (One : Prop) (Accepts : NntpFile → Prop) (st : ParCall ParXInfo W)
    (r : Except ParStop α × ParCall ParXInfo W) : Prop where
  moved : Moved One ParXInfo.files ParXInfo.At st r.2
  matched : r.2.info.Matched Accepts
  throws : ∀ stop, r.1 = .error stop → ∃ e, stop = .thrown e

section
variable {ν : Type} {check : Text → List Text → W → Except Text (Int × ν) × W}
  {get : Int → ν → Text → ParXInfo → Int × List NntpFile × ParXInfo}

theorem checkSet_sound {key : Text} {names : List Text} {total : Int} {st : ParCall ParXInfo W}
    (hget : ∀ num found, Gets One st.info (get num found key st.info).2.1 (get num found key st.info).2.2)
    (hkey : ∃ basename, basename ∈ st.info.localpars.basenames key) (hmatched : st.info.Matched Accepts) :
    CallSound One Accepts st (checkSet par check get key names total st) ∧
      (checkSet par check get key names total st).2.info.localpars = st.info.localpars := by
  unfold checkSet
  split
  · exact ⟨⟨Moved.refl rfl rfl fun _ => Iff.rfl, hmatched, nofun⟩, rfl⟩
  · split
    · next e w _ =>
      refine ⟨⟨Moved.refl rfl rfl fun _ => Iff.rfl, hmatched, fun stop hstop => ?_⟩, rfl⟩
      cases hstop
      exact ⟨e, rfl⟩
    · next needed found w _ =>
      dsimp only
      split
      · exact ⟨⟨Moved.refl rfl rfl fun _ => Iff.rfl, hmatched, nofun⟩, rfl⟩
      · split
        · next hempty =>
          obtain ⟨basename, hbase⟩ := hkey
          rw [List.isEmpty_iff.mp hempty] at hbase
          cases hbase
        · have hgets := hget needed found
          generalize get needed found key st.info = got at hgets ⊢
          obtain ⟨parsetAdded, files, info⟩ := got
          dsimp only at hgets ⊢
          have hmoved : Moved One ParXInfo.files ParXInfo.At st ⟨info, st.added ++ files.map info.retr, w⟩ :=
            Moved.map_retr hgets.files hgets.path
          have hmatched' : info.Matched Accepts := by
            unfold ParXInfo.Matched
            rw [hgets.parsets]
            exact hmatched
          split
          · exact ⟨⟨hmoved, hmatched', nofun⟩, hgets.localpars⟩
          · exact ⟨⟨hmoved, hmatched', nofun⟩, hgets.localpars⟩

theorem checkSets_sound {localpars : LocalParFiles} {files : Multiset NntpFile}
    (hget : ∀ num found key info, info.localpars = localpars → (One → ∀ f ∈ info.files, f ∈ files) →
      Gets One info (get num found key info).2.1 (get num found key info).2.2) :
    ∀ (sets : List (Text × List Text)) (total : Int) (st : ParCall ParXInfo W), st.info.localpars = localpars →
      (One → ∀ f ∈ st.info.files, f ∈ files) → (∀ e ∈ sets, ∃ basename, basename ∈ localpars.basenames e.1) →
      st.info.Matched Accepts → CallSound One Accepts st (checkSets par check get sets total st)
  | [], _, _, _, _, _, hmatched => ⟨Moved.refl rfl rfl fun _ => Iff.rfl, hmatched, nofun⟩
  | (key, names) :: sets, total, st, hlocal, hfiles, hsets, hmatched => by
    rw [List.forall_mem_cons] at hsets
    obtain ⟨hsound, hlocal'⟩ := @checkSet_sound W par Accepts One ν check get key names total st
      (fun num found => hget num found key st.info hlocal hfiles) (hlocal ▸ hsets.1) hmatched
    unfold checkSets
    generalize checkSet par check get key names total st = r at hsound hlocal' ⊢
    obtain ⟨stop | total', st'⟩ := r
    · exact ⟨hsound.moved, hsound.matched, fun _ hstop => by cases hstop; exact hsound.throws stop rfl⟩
    · have hlater := checkSets_sound hget sets total' st' (hlocal'.trans hlocal)
        (fun h1 f hf => hfiles h1 f (hsound.moved.mem h1 hf)) hsets.2 hsound.matched
      exact ⟨hsound.moved.trans hlater.moved, hlater.matched, hlater.throws⟩

/-- What the two `maybe_get_pxxs`s share. -/
theorem maybeGetPxxs_sound {addfrompath : Text → W → Except Text LocalParFiles × W}
    {maybeAddParfile : ParXInfo → NntpFile → Bool → Option ParXInfo} {st : ParCall ParXInfo W}
    (hnamed : ∀ path w l w', addfrompath path w = (.ok l, w') → l.Named)
    (htakes : ∀ info f info', maybeAddParfile info f true = some info' → Takes Accepts info f info')
    (hreadd : ∀ info f, Accepts f → ∃ info', maybeAddParfile info f true = some info')
    (hget : ∀ l w', addfrompath st.info.path st.world = (.ok l, w') → ∀ num found key info, info.localpars = l →
      (One → ∀ f ∈ info.files, f ∈ st.info.files) → Gets One info (get num found key info).2.1 (get num found key info).2.2)
    (hmatched : st.info.Matched Accepts) :
    CallSound One Accepts st (maybeGetPxxs par check get addfrompath maybeAddParfile st) := by
  unfold maybeGetPxxs
  split
  · next e w _ =>
    refine ⟨Moved.refl rfl rfl fun _ => Iff.rfl, hmatched, fun stop hstop => ?_⟩
    cases hstop
    exact ⟨e, rfl⟩
  · next localpars w hload =>
    dsimp only
    have hrel := @releaseUnclaimedPxxs_files { st.info with localpars }
    have hrelm := @releaseUnclaimedPxxs_matched Accepts { st.info with localpars }
    have haccepts := @mem_releaseUnclaimedPxxs Accepts { st.info with localpars } hmatched
    have hrellocal : ({ st.info with localpars } : ParXInfo).releaseUnclaimedPxxs.2.localpars = localpars := rfl
    have hrelpath : ({ st.info with localpars } : ParXInfo).releaseUnclaimedPxxs.2.path = st.info.path := rfl
    generalize ({ st.info with localpars } : ParXInfo).releaseUnclaimedPxxs = released
      at hrel hrelm haccepts hrellocal hrelpath ⊢
    obtain ⟨unclaimedfiles, info1⟩ := released
    dsimp only at hrel hrelm haccepts hrellocal hrelpath ⊢
    obtain ⟨info2, hadd, hfiles2, hpath2, hlocal2, hmatched2⟩ := readd_all htakes hreadd unclaimedfiles info1 haccepts hrelm
    rw [hadd]
    dsimp only
    have hinit := @getInitialPars_files _ par info2
    have hinitm := @getInitialPars_matched _ par _ info2 hmatched2
    have hinitlocal : (info2.getInitialPars par).2.localpars = info2.localpars := rfl
    have hinitpath : (info2.getInitialPars par).2.path = info2.path := rfl
    generalize info2.getInitialPars par = initial at hinit hinitm hinitlocal hinitpath ⊢
    obtain ⟨files, info3⟩ := initial
    dsimp only at hinit hinitm hinitlocal hinitpath ⊢
    have hstart : Moved One ParXInfo.files ParXInfo.At st ⟨info3, st.added ++ files.map info3.retr, w⟩ :=
      Moved.map_retr (fun _ => by rw [hinit, hfiles2, hrel]; rfl) (hinitpath.trans (hpath2.trans hrelpath))
    have hlocal3 : info3.localpars = localpars := hinitlocal.trans (hlocal2.trans hrellocal)
    have hsets := @checkSets_sound W par Accepts One ν check get localpars st.info.files (hget _ _ hload)
      info3.localpars.basefilenames.entries files.length ⟨info3, st.added ++ files.map info3.retr, w⟩ hlocal3
      (fun h1 f hf => hstart.mem h1 hf) (fun e he => hnamed _ _ _ _ hload e (hlocal3 ▸ he)) hinitm
    generalize checkSets par check get info3.localpars.basefilenames.entries files.length
      ⟨info3, st.added ++ files.map info3.retr, w⟩ = r at hsets ⊢
    obtain ⟨stop | total, st'⟩ := r
    · exact ⟨hstart.trans hsets.moved, hsets.matched, fun _ hstop => by cases hstop; exact hsets.throws stop rfl⟩
    · dsimp only
      split
      · exact ⟨hstart.trans hsets.moved, hsets.matched, nofun⟩
      · exact ⟨hstart.trans hsets.moved, hsets.matched, nofun⟩

end

theorem par1MaybeGetPxxs_sound {st : ParCall ParXInfo W} (hmatched : st.info.Matched (Par1Accepts par)) :
    CallSound One (Par1Accepts par) st (par1MaybeGetPxxs par st) :=
  maybeGetPxxs_sound (fun _ _ _ _ h => LocalParFiles.addfrompath_named h) (fun _ _ _ h => par1MaybeAddParfile_takes h)
    (fun _ _ h => par1MaybeAddParfile_readd h) (fun _ _ _ _ _ _ _ _ _ => getPxxs_gets) hmatched

/-- Where the call reads the directory of its path, the subject of each file that is known of the path matches at most one
    basename of each set that is found there. -/
def ParCall.OneBasename (par : ParOutside W) (load : ParCall ParXInfo W) : Prop :=
  ∀ l w', LocalParFiles.addfrompathPar2 par load.info.path load.world = (.ok l, w') →
    ∀ f ∈ load.info.files, ∀ key, (matchingBasenames par (l.basenames key) f).length ≤ 1

/-- The subject of the file matches at most one local basename of each set. -/
def ParOutside.OneBasename (par : ParOutside W) (f : NntpFile) : Prop :=
  ∀ path w l w', LocalParFiles.addfrompathPar2 par path w = (.ok l, w') →
    ∀ key, (matchingBasenames par (l.basenames key) f).length ≤ 1

theorem par2MaybeGetPxxs_sound {st : ParCall ParXInfo W} (hone : One → st.OneBasename par)
    (hmatched : st.info.Matched (Par2Accepts par)) : CallSound One (Par2Accepts par) st (par2MaybeGetPxxs par st) :=
  maybeGetPxxs_sound (fun _ _ _ _ h => LocalParFiles.addfrompath_named h) (fun _ _ _ h => par2MaybeAddParfile_takes h)
    (fun _ _ h => par2MaybeAddParfile_readd h)
    (fun _ _ hload _ _ key _ hlocal hfiles => getRecoverypackets_gets fun h1 f hf =>
      hlocal ▸ hone h1 _ _ hload f (hfiles h1 f hf) key) hmatched

end
end Nget

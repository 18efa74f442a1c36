import Nget.Theorems.IntactSet

/-! The blocks that are missing are counted right, and a repair is said not to be possible exactly when they are more than the
    recovery packets. -/

namespace Nget.Par2

/-- The blocks of a source file that were not found. -/
def missingBlocks : Option SourceFile → Nat
  | none => 0
  | some file => if file.completefile.isSome then 0 else file.sourceblocks.countP fun datablock => !datablock.isSet

/-- The blocks of a source file, as they are counted from its size. -/
def allBlocks (blocksize : Nat) (file : Option SourceFile) : UInt32 := (file.map (·.blockCount blocksize)).getD 0

/-- As many blocks as are counted were allocated. -/
def Allocated (blocksize : Nat) (file : Option SourceFile) : Prop :=
  ∀ f, file = some f → f.sourceblocks.length = (f.blockCount blocksize).toNat

theorem available_add_missing {blocksize : Nat} {file : Option SourceFile} (h : Allocated blocksize file) :
    Repairer.availableBlocks blocksize file + UInt32.ofNat (missingBlocks file) = allBlocks blocksize file := by
  cases file with
  | none => rfl
  | some file =>
    unfold Repairer.availableBlocks missingBlocks allBlocks
    dsimp only
    split
    · exact UInt32.add_zero _
    · have hlength := List.length_eq_countP_add_countP (fun datablock : DataBlock => datablock.isSet) (l := file.sourceblocks)
      rw [h file rfl] at hlength
      rw [← UInt32.ofNat_add, Option.map_some, Option.getD_some]
      simp only [Bool.not_eq_true, Bool.decide_eq_false] at hlength
      rw [← hlength, UInt32.ofNat_toNat]

theorem sum_available_add_missing {blocksize : Nat} (files : List (Option SourceFile)) (h : ∀ file ∈ files, Allocated blocksize file) :
    (files.map (Repairer.availableBlocks blocksize)).sum + (files.map fun file => UInt32.ofNat (missingBlocks file)).sum =
      (files.map (allBlocks blocksize)).sum := by
  induction files with
  | nil => rfl
  | cons file files ih =>
    rw [List.map_cons, List.map_cons, List.map_cons, List.sum_cons, List.sum_cons, List.sum_cons,
      ← available_add_missing (h file List.mem_cons_self), ← ih fun file hfile => h file (List.mem_cons_of_mem _ hfile)]
    simp only [UInt32.add_assoc]
    congr 1
    rw [← UInt32.add_assoc, ← UInt32.add_assoc, UInt32.add_comm (UInt32.ofNat _)]

/-! ### Over a run -/

section
variable {packets : Packets} {mainpacket : MainPacket} {searchpath : Text} {loaded : List Text} {s t : Repairer}

theorem map_allBlocks_of_plan (h : t.plan = s.plan) (blocksize : Nat) :
    t.sourcefiles.map (allBlocks blocksize) = s.sourcefiles.map (allBlocks blocksize) := by
  have hplan : ∀ s : Repairer, s.plan.sourcefiles.map (allBlocks blocksize) = s.sourcefiles.map (allBlocks blocksize) := fun s => by
    unfold Repairer.plan
    rw [List.map_map]
    refine List.map_congr_left fun file _ => ?_
    cases file <;> rfl
  rw [← hplan t, h, hplan]

theorem sourceblockcount_prepare (hrecoverable : mainpacket.recoverablefilecount = mainpacket.fileids.length) :
    (prepare packets mainpacket searchpath loaded).sourceblockcount =
      ((prepare packets mainpacket searchpath loaded).sourcefiles.map (allBlocks mainpacket.blocksize)).sum := by
  have hall : (mainpacket.fileids.map (createSourceFile packets mainpacket.blocksize searchpath)).take
      mainpacket.recoverablefilecount = mainpacket.fileids.map (createSourceFile packets mainpacket.blocksize searchpath) := by
    rw [hrecoverable]
    exact List.take_of_length_le (List.length_map _).le
  unfold prepare Repairer.prepareVerificationHashTable Repairer.allocateSourceBlocks Repairer.blocksize
  dsimp only
  rw [hall]
  split
  · dsimp only
    congr 1
    refine List.ext_getElem? fun i => ?_
    rw [List.getElem?_map, List.getElem?_map, List.getElem?_map, List.getElem?_mapIdx, List.getElem?_map]
    rcases mainpacket.fileids[i]? with _ | fileid
    · rfl
    · simp only [Option.map_some]
      split
      · rcases createSourceFile packets mainpacket.blocksize searchpath fileid with _ | file <;> rfl
      · rfl
  · rfl

/-- As many blocks as are counted were allocated to each file, unless the count wraps around. -/
theorem allocated_of_plan (hrecoverable : mainpacket.recoverablefilecount = mainpacket.fileids.length)
    (hplan : s.plan = (prepare packets mainpacket searchpath loaded).plan)
    (htotal : ((s.sourcefiles.map (allBlocks mainpacket.blocksize)).map UInt32.toNat).sum < 2 ^ 32) :
    ∀ file ∈ s.sourcefiles, Allocated mainpacket.blocksize file := by
  rintro _ hmem file rfl
  obtain ⟨i, hi⟩ := List.mem_iff_getElem?.mp hmem
  have hfile : s.file? i = some file := by
    unfold Repairer.file?
    rw [hi]
    rfl
  have hsame : ((prepare packets mainpacket searchpath loaded).file? i).map SourceFile.plan = some file.plan := by
    rw [← Repairer.file?_plan, ← hplan, Repairer.file?_plan, hfile]
    rfl
  obtain ⟨made, hmade, hp⟩ := Option.map_eq_some_iff.mp hsame
  have hlength : file.sourceblocks.length = made.sourceblocks.length := by
    have hblocks := congrArg (fun file => file.sourceblocks.length) hp
    unfold SourceFile.plan at hblocks
    simpa only [List.length_map] using hblocks.symm
  have hcount : file.blockCount mainpacket.blocksize = made.blockCount mainpacket.blocksize := by
    have hcount := congrArg (SourceFile.blockCount mainpacket.blocksize) hp
    exact hcount.symm
  obtain ⟨fileid, file', hfileid, hcreated, ⟨hout, rfl⟩ | rfl⟩ := file?_prepare hmade
  · -- No blocks are allocated, since none are counted.
    have hlt : i < mainpacket.recoverablefilecount := hrecoverable ▸ (List.getElem?_eq_some_iff.mp hfileid).1
    have hzero : (s.sourcefiles.map (allBlocks mainpacket.blocksize)).sum = 0 := by
      rw [map_allBlocks_of_plan hplan, ← sourceblockcount_prepare hrecoverable]
      exact UInt32.le_zero_iff.mp (UInt32.not_lt.mp fun hpos => hout ⟨hlt, hpos⟩)
    have hsum := toNat_sum _ htotal
    rw [hzero, UInt32.toNat_zero, eq_comm, List.sum_eq_zero_iff] at hsum
    have hnone : (file.blockCount mainpacket.blocksize).toNat = 0 :=
      hsum _ (List.mem_map.mpr ⟨allBlocks mainpacket.blocksize (some file), List.mem_map.mpr ⟨_, hmem, rfl⟩, rfl⟩)
    rw [hlength, (createSourceFile_fresh hcreated).sourceblocks, hnone]
    rfl
  · rw [hlength, hcount]
    unfold SourceFile.setBlocks
    rw [List.length_map, List.length_range]
    rfl

theorem toNat_missing_le {blocksize : Nat} {file : Option SourceFile} (h : Allocated blocksize file) :
    missingBlocks file ≤ (allBlocks blocksize file).toNat := by
  cases file with
  | none => exact Nat.zero_le _
  | some file =>
    unfold missingBlocks
    dsimp only
    split
    · exact Nat.zero_le _
    · exact List.countP_le_length.trans_eq (h file rfl)

theorem missingblockcount_eq (hrecoverable : mainpacket.recoverablefilecount = mainpacket.fileids.length)
    (hplan : s.plan = (prepare packets mainpacket searchpath loaded).plan)
    (htotal : ((s.sourcefiles.map (allBlocks mainpacket.blocksize)).map UInt32.toNat).sum < 2 ^ 32) :
    s.updateVerificationResults.missingblockcount.toNat = (s.sourcefiles.map missingBlocks).sum := by
  have hallocated := allocated_of_plan hrecoverable hplan htotal
  have hle : (s.sourcefiles.map missingBlocks).sum ≤ ((s.sourcefiles.map (allBlocks mainpacket.blocksize)).map UInt32.toNat).sum := by
    rw [List.map_map]
    exact List.sum_le_sum fun file hfile => toNat_missing_le (hallocated file hfile)
  have hblocksize : s.blocksize = mainpacket.blocksize := by
    rw [Repairer.blocksize_of_plan hplan, Repairer.blocksize, mainpacket_prepare]
  have hcount : s.sourceblockcount = (s.sourcefiles.map (allBlocks mainpacket.blocksize)).sum := by
    have hcount := congrArg Repairer.sourceblockcount hplan
    rw [map_allBlocks_of_plan hplan, ← sourceblockcount_prepare hrecoverable]
    exact hcount
  have hmissing : s.updateVerificationResults.missingblockcount = (s.sourcefiles.map fun file => UInt32.ofNat (missingBlocks file)).sum := by
    change s.sourceblockcount - (s.sourcefiles.map (Repairer.availableBlocks s.blocksize)).sum = _
    rw [hcount, hblocksize, ← sum_available_add_missing _ hallocated, UInt32.add_comm, UInt32.add_sub_cancel]
  have hsame : (s.sourcefiles.map fun file => UInt32.ofNat (missingBlocks file)).map UInt32.toNat =
      s.sourcefiles.map missingBlocks := by
    rw [List.map_map]
    refine List.map_congr_left fun file hfile => UInt32.toNat_ofNat_of_lt' ?_
    exact (toNat_missing_le (hallocated file hfile)).trans_lt (UInt32.toNat_lt _)
  rw [hmissing, toNat_sum, hsame]
  rw [hsame]
  exact hle.trans_lt htotal

/-- A repair is said not to be possible exactly when more blocks are missing than there are recovery packets. -/
theorem result_eRepairNotPossible {dorepair : Bool} (hall : s.sourcefiles.length ≤ s.mainpacket.recoverablefilecount)
    (hmissing : s.updateVerificationResults.missingblockcount.toNat = (s.sourcefiles.map missingBlocks).sum) :
    s.updateVerificationResults.result dorepair = .eRepairNotPossible ↔
      s.recoverypackets < (s.sourcefiles.map missingBlocks).sum := by
  have hcheck : s.updateVerificationResults.checkVerificationResults = false ↔
      s.recoverypackets < (s.sourcefiles.map missingBlocks).sum := by
    unfold Repairer.checkVerificationResults
    rw [hmissing]
    split
    · exact decide_eq_false_iff_not.trans Nat.not_le
    · next hdone =>
      -- All files are complete, and nothing is missing.
      simp only [Bool.or_eq_true, decide_eq_true_eq, not_or, Nat.not_lt] at hdone
      have hcomplete : s.sourcefiles.countP (Repairer.status · = .complete) = s.sourcefiles.length :=
        Nat.le_antisymm List.countP_le_length (hall.trans hdone.1.1.1)
      have hnone : (s.sourcefiles.map missingBlocks).sum = 0 := by
        refine List.sum_eq_zero fun n hn => ?_
        obtain ⟨file, hfile, rfl⟩ := List.mem_map.mp hn
        obtain ⟨f, d, rfl, hd, -⟩ := status_eq_complete (of_decide_eq_true (List.countP_eq_length.mp hcomplete file hfile))
        unfold missingBlocks
        dsimp only
        rw [hd]
        rfl
      rw [hnone]
      exact ⟨nofun, fun h => absurd h (Nat.not_lt_zero _)⟩
  unfold Repairer.result
  rw [← hcheck]
  cases s.updateVerificationResults.checkVerificationResults with
  | false => exact ⟨fun _ => rfl, fun _ => rfl⟩
  | true =>
    refine ⟨fun h => ?_, nofun⟩
    rw [Bool.not_true, if_neg nofun] at h
    split at h
    · split at h <;> cases h
    · cases h

end

/-- However a verification ends that reaches its end, with all files of the set recoverable and fewer than 2^32 blocks in all: the
    count of missing blocks is that of the blocks which were not found, of the files that are not complete, and a repair is said not
    to be possible exactly when they are more than the recovery packets. -/
theorem missing_blocks_counted {o : Outside} {packets : Packets} {mainpacket : MainPacket} {searchpath : Text}
    {loaded filenames : List Text} {extrafilenamemap : List (Text × Text)} {dorepair : Bool} {s : Repairer} {result : Result}
    (hmain : packets.mainpacket = some mainpacket) (hrecoverable : mainpacket.recoverablefilecount = mainpacket.fileids.length)
    (h : process o packets searchpath loaded filenames extrafilenamemap dorepair = (some s, result)) (hend : result ≠ .eFileIOError)
    (htotal : ((s.sourcefiles.map (allBlocks mainpacket.blocksize)).map UInt32.toNat).sum < 2 ^ 32) :
    s.missingblockcount.toNat = (s.sourcefiles.map missingBlocks).sum ∧
      (result = .eRepairNotPossible ↔ s.recoverypackets < (s.sourcefiles.map missingBlocks).sum) := by
  obtain ⟨⟨hplan, -⟩, hresult⟩ := process_cases hmain h
  obtain ⟨t, rfl, rfl⟩ := hresult hend
  have hmissing := missingblockcount_eq (s := t) hrecoverable hplan htotal
  have hall : t.sourcefiles.length ≤ t.mainpacket.recoverablefilecount := by
    have hmainpacket := congrArg Repairer.mainpacket hplan
    have hsame : t.mainpacket = mainpacket := hmainpacket.trans mainpacket_prepare
    rw [hsame, hrecoverable]
    exact ((length_of_plan (s := prepare packets mainpacket searchpath loaded) (t := t) hplan).trans length_prepare).le
  exact ⟨hmissing, result_eRepairNotPossible hall hmissing⟩

/-- The sample cut short has lost its last two blocks. -/
def cutOutside : Outside where
  disk filename := if filename = ['a'] then some { object := 0, contents := sampleContents.take 6 } else none

theorem missing_blocks_counted_sample : ∃ s, process cutOutside samplePackets [] [] [] [] false = (some s, .eRepairNotPossible) ∧
    (s.sourcefiles.map missingBlocks).sum = 2 := by
  have hresult : (process cutOutside samplePackets [] [] [] [] false).2 = .eRepairNotPossible := by decide +kernel
  have hsome : (process cutOutside samplePackets [] [] [] [] false).1.isSome = true := by decide +kernel
  have htwo : ∀ s ∈ (process cutOutside samplePackets [] [] [] [] false).1, s.missingblockcount = 2 ∧
      ((s.sourcefiles.map (allBlocks 4)).map UInt32.toNat).sum = 3 := by decide +kernel
  obtain ⟨s, hs⟩ := Option.isSome_iff_exists.mp hsome
  have hrun : process cutOutside samplePackets [] [] [] [] false = (some s, .eRepairNotPossible) := Prod.ext hs hresult
  obtain ⟨hmissing, htotal⟩ := htwo s hs
  refine ⟨s, hrun, ?_⟩
  have hlt : ((s.sourcefiles.map (allBlocks sampleMain.blocksize)).map UInt32.toNat).sum < 2 ^ 32 := htotal.trans_lt (by decide)
  have hcounted := (@missing_blocks_counted _ _ sampleMain _ _ _ _ _ _ _ rfl rfl hrun nofun hlt).1
  rw [← hcounted, hmissing]
  rfl

end Nget.Par2

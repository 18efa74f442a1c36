import Nget.Theorems.IntactFiles

/-! A set whose files are all intact is verified with success. -/

namespace Nget.Par2

namespace Repairer

/-! ### File after file -/

/-- The source files of a list still have to be verified, and will be found intact; all others are complete. -/
structure Progress (o : Outside) (s : Repairer) (files : List (Nat × SourceFile)) (t : Repairer) : Prop where
  plan : t.plan = s.plan
  counted : t.completefilecount = t.sourcefiles.countP (status · = .complete)
  names : ∀ f ∈ files, f.2.targetfilename ∉ t.diskFileMap
  pending : ∀ f ∈ files, ∃ file diskfile, t.file? f.1 = some file ∧ o.disk f.2.targetfilename = some diskfile ∧
    (∀ offset length, diskfile.readable offset length = true) ∧ file.Pending s.blocksize diskfile.contents 0
  complete : ∀ i file, t.file? i = some file → (∀ f ∈ files, f.1 ≠ i) → status (some file) = .complete

theorem status_complete {file : SourceFile} {object : Nat} (hcomplete : file.completefile = some object)
    (htarget : file.targetfile = some object) : status (some file) = .complete := by
  unfold status
  dsimp only
  rw [hcomplete, htarget]
  simp

section
variable {o : Outside} {s t : Repairer} {f : Nat × SourceFile} {files : List (Nat × SourceFile)}

theorem Progress.step (h : Progress o s (f :: files) t) (htable : s.TableExact) (hallocated : s.blocksallocated = true)
    (hverifiable : s.blockverifiable = true)
    (hother : ∀ g ∈ files, f.1 ≠ g.1 ∧ f.2.targetfilename ≠ g.2.targetfilename) (finalresult : Bool) :
    ∃ u, t.verifySorted o (f :: files) finalresult = u.verifySorted o files finalresult ∧ Progress o s files u := by
  obtain ⟨file, diskfile, hfile, hdisk, hread, hpending⟩ := h.pending f List.mem_cons_self
  have hopen : t.openFile o f.2.targetfilename = some { diskfile with object := t.diskFileMap.length } := by
    unfold openFile
    rw [hdisk]
    rfl
  -- The repairer when the file has been opened.
  obtain ⟨u, hu⟩ : ∃ u, u = (t.setTarget t.diskFileMap.length f.1).insertDiskFile f.2.targetfilename := ⟨_, rfl⟩
  have hplan : u.plan = s.plan := by
    rw [hu]
    exact (plan_setTarget _ _ _).trans h.plan
  have hblocksize : u.blocksize = s.blocksize := blocksize_of_plan hplan
  have hothers : ∀ j, j ≠ f.1 → u.file? j = t.file? j := fun j hj => by
    rw [hu]
    change (t.setTarget _ f.1).file? j = _
    unfold setTarget
    rw [file?_modifyFile, if_neg fun h => hj h.symm, Option.map_id_fun]
    rfl
  have hfresh : u.FoundTo f.1 t.diskFileMap.length diskfile.contents 0 u := by
    refine ⟨rfl, rfl, fun _ _ => rfl, { file with targetexists := true, targetfile := some t.diskFileMap.length }, ?_, ?_, rfl⟩
    · rw [hu]
      change (t.setTarget _ f.1).file? f.1 = _
      unfold setTarget
      rw [file?_modifyFile, if_pos rfl, hfile]
      rfl
    · rw [hblocksize]
      exact ⟨⟨hpending.describes.nonempty, hpending.describes.fileSize, hpending.describes.hashFull, hpending.describes.hash16k,
        hpending.describes.blocks⟩, hpending.incomplete, hpending.blocks⟩
  obtain ⟨v, hv, hcompleted⟩ :=
    @verifyDataFile_intact u f.1 { diskfile with object := t.diskFileMap.length } (htable.of_plan hplan)
    ((Scan.blocksallocated_of_plan hplan).trans hallocated) ((blockverifiable_of_plan hplan).trans hverifiable) hread hfresh
    (o.uninitialised f.2.targetfilename)
  refine ⟨v.updateVerificationResults, ?_, hcompleted.plan.trans hplan, rfl, fun g hg hmem => ?_, fun g hg => ?_,
    fun i fi hfi hi => ?_⟩
  · conv_lhs => unfold verifySorted
    dsimp only
    rw [if_neg (h.names f List.mem_cons_self), hopen]
    dsimp only
    rw [← hu, hv, Bool.and_true]
  · have hnames : v.diskFileMap = t.diskFileMap ++ [f.2.targetfilename] := by
      rw [hcompleted.names, hu]
      rfl
    rcases List.mem_append.mp (hnames ▸ hmem) with hold | hnew
    · exact h.names g (List.mem_cons_of_mem _ hg) hold
    · exact (hother g hg).2 (List.mem_singleton.mp hnew).symm
  · obtain ⟨gfile, gdisk, hgfile, hrest⟩ := h.pending g (List.mem_cons_of_mem _ hg)
    refine ⟨gfile, gdisk, ?_, hrest⟩
    change v.file? g.1 = _
    rw [hcompleted.others _ (hother g hg).1.symm, hothers _ (hother g hg).1.symm, hgfile]
  · change v.file? i = some fi at hfi
    rcases eq_or_ne i f.1 with rfl | hne
    · obtain ⟨done, hdone, hcomplete, htarget⟩ := hcompleted.complete
      obtain rfl := Option.some.inj (hfi.symm.trans hdone)
      exact status_complete hcomplete htarget
    · rw [hcompleted.others _ hne, hothers _ hne] at hfi
      exact h.complete i fi hfi fun g hg => by
        rcases List.mem_cons.mp hg with rfl | hg
        · exact hne.symm
        · exact hi g hg

theorem Progress.run (htable : s.TableExact) (hallocated : s.blocksallocated = true) (hverifiable : s.blockverifiable = true)
    (hdistinct : files.Pairwise fun f g => f.1 ≠ g.1 ∧ f.2.targetfilename ≠ g.2.targetfilename) (finalresult : Bool) :
    ∀ {t : Repairer}, Progress o s files t → ∃ u, t.verifySorted o files finalresult = (u, finalresult) ∧
      Progress o s [] u := by
  induction files with
  | nil => exact fun h => ⟨_, rfl, h⟩
  | cons f files ih =>
    intro t h
    obtain ⟨hother, hrest⟩ := List.pairwise_cons.mp hdistinct
    obtain ⟨u, hu, hnext⟩ := h.step htable hallocated hverifiable hother finalresult
    rw [hu]
    exact ih hrest hnext

end
end Repairer

/-! ### The set before the run -/

/-- All files are recoverable and on disk under their own names as they are described. -/
structure IntactSet (o : Outside) (packets : Packets) (mainpacket : MainPacket) (searchpath : Text) (loaded :
    List Text) : Prop where
  main : packets.mainpacket = some mainpacket
  recoverable : mainpacket.recoverablefilecount = mainpacket.fileids.length
  files : ∀ fileid ∈ mainpacket.fileids, ∃ file diskfile,
    createSourceFile packets mainpacket.blocksize searchpath fileid = some file ∧ o.disk file.targetfilename = some diskfile ∧
    (∀ offset length, diskfile.readable offset length = true) ∧ file.Describes mainpacket.blocksize diskfile.contents ∧
    file.targetfilename ∉ loaded
  distinct : mainpacket.fileids.Pairwise fun a b => ∀ f g, createSourceFile packets mainpacket.blocksize searchpath a = some f →
    createSourceFile packets mainpacket.blocksize searchpath b = some g → f.targetfilename ≠ g.targetfilename

section
variable {o : Outside} {packets : Packets} {mainpacket : MainPacket} {searchpath : Text} {loaded : List Text}

theorem toNat_sum (counts : List UInt32) (h : (counts.map UInt32.toNat).sum < 2 ^ 32) :
    counts.sum.toNat = (counts.map UInt32.toNat).sum := by
  induction counts with
  | nil => rfl
  | cons n counts ih =>
    rw [List.map_cons, List.sum_cons] at h ⊢
    rw [List.sum_cons, UInt32.toNat_add, ih (by omega), Nat.mod_eq_of_lt h]

/-- The number of blocks of a file that is described, as it is computed from the size. -/
theorem blockCount_of_describes {blocksize : Nat} (hblocksize : 0 < blocksize) {file : SourceFile} {contents : List UInt8}
    (h : file.Describes blocksize contents) :
    (file.blockCount blocksize).toNat = (contents.length + blocksize - 1) / blocksize ∧ 0 < (file.blockCount blocksize).toNat ∧
      (file.blockCount blocksize).toNat ≤ 32768 := by
  obtain ⟨packet, hpacket, -⟩ := h.blocks
  have hmod := Nat.div_add_mod (contents.length + blocksize - 1) blocksize
  have hlt := Nat.mod_lt (contents.length + blocksize - 1) hblocksize
  have hcount : packet.blockCount = (contents.length + blocksize - 1) / blocksize := by
    refine Scan.Describes.blockCount h hpacket ?_ ?_
    · rw [Nat.mul_comm]
      omega
    · rw [Nat.mul_comm]
      omega
  have hle := packet.blockcount_le
  have hpos := packet.blockcount_pos
  change packet.blockCount ≤ 32768 at hle
  change 0 < packet.blockCount at hpos
  have hblocks : (file.blockCount blocksize).toNat = packet.blockCount := by
    unfold SourceFile.blockCount
    rw [h.fileSize, ← hcount, UInt32.toNat_ofNat_of_lt' (hle.trans_lt (by decide))]
  rw [hblocks]
  exact ⟨hcount, hpos, hle⟩

theorem IntactSet.allocated (h : IntactSet o packets mainpacket searchpath loaded) (hsome : mainpacket.fileids ≠ []) :
    (prepare packets mainpacket searchpath loaded).blocksallocated = true ∧
      0 < (prepare packets mainpacket searchpath loaded).sourceblockcount := by
  -- No file has more than 32768 blocks, and there are no more files than that, so that the count does not wrap around to 0.
  have hcounts : ∀ n ∈ (mainpacket.fileids.map (createSourceFile packets mainpacket.blocksize searchpath)).map fun file =>
      (file.map (·.blockCount mainpacket.blocksize)).getD 0, 0 < n.toNat ∧ n.toNat ≤ 32768 := by
    intro n hn
    obtain ⟨_, hmem, rfl⟩ := List.mem_map.mp hn
    obtain ⟨fileid, hfileid, rfl⟩ := List.mem_map.mp hmem
    obtain ⟨file, diskfile, hcreated, -, -, hdescribes, -⟩ := h.files fileid hfileid
    rw [hcreated]
    exact (blockCount_of_describes mainpacket.blocksize_pos hdescribes).2
  have hall : (mainpacket.fileids.map (createSourceFile packets mainpacket.blocksize searchpath)).take
      mainpacket.recoverablefilecount = mainpacket.fileids.map (createSourceFile packets mainpacket.blocksize searchpath) := by
    rw [h.recoverable]
    exact List.take_of_length_le (List.length_map _).le
  generalize hlist : ((mainpacket.fileids.map (createSourceFile packets mainpacket.blocksize searchpath)).map fun file =>
      (file.map (·.blockCount mainpacket.blocksize)).getD 0) = counts at hcounts
  have hlength : counts.length ≤ 32768 := by
    rw [← hlist, List.length_map, List.length_map]
    exact mainpacket.totalfilecount_le
  have hsum : (counts.map UInt32.toNat).sum ≤ (counts.map UInt32.toNat).length • 32768 := by
    refine List.sum_le_card_nsmul _ _ fun n hn => ?_
    obtain ⟨count, hcount, rfl⟩ := List.mem_map.mp hn
    exact (hcounts count hcount).2
  rw [List.length_map, smul_eq_mul] at hsum
  have hpos : 0 < (counts.map UInt32.toNat).sum := by
    refine List.sum_pos _ (fun n hn => ?_) fun hnil => ?_
    · obtain ⟨count, hcount, rfl⟩ := List.mem_map.mp hn
      exact (hcounts count hcount).1
    · rw [← hlist, List.map_map, List.map_map, List.map_eq_nil_iff] at hnil
      exact hsome hnil
  have htotal : 0 < counts.sum := by
    rw [UInt32.lt_iff_toNat_lt, toNat_sum _ (by omega)]
    exact hpos
  unfold prepare Repairer.prepareVerificationHashTable Repairer.allocateSourceBlocks Repairer.blocksize
  dsimp only
  rw [hall, hlist, if_pos htotal]
  exact ⟨rfl, htotal⟩

theorem IntactSet.file (h : IntactSet o packets mainpacket searchpath loaded) {i : Nat} {fileid : List UInt8}
    (hi : mainpacket.fileids[i]? = some fileid) :
      ∃ file, createSourceFile packets mainpacket.blocksize searchpath fileid = some file ∧
      (prepare packets mainpacket searchpath loaded).file? i = some (file.setBlocks mainpacket.blocksize) := by
  obtain ⟨file, -, hcreated, -⟩ := h.files fileid (List.mem_of_getElem? hi)
  refine ⟨file, hcreated, ?_⟩
  have hlt : i < mainpacket.recoverablefilecount := h.recoverable ▸ (List.getElem?_eq_some_iff.mp hi).1
  have hblocks := (h.allocated fun hnil => by rw [hnil] at hi; cases hi).2
  refine Option.join_eq_some_iff.mpr ?_
  change (Repairer.allocateSourceBlocks _).sourcefiles[i]? = _
  rw [getElem?_allocateSourceBlocks]
  dsimp only
  rw [if_pos ⟨hlt, hblocks⟩, List.getElem?_map, hi, Option.map_some, Option.map_some, hcreated]
  rfl

/-- The files of the set, each with what it is made from. -/
theorem IntactSet.made (h : IntactSet o packets mainpacket searchpath loaded) {i : Nat} {file : SourceFile}
    (hfile : (prepare packets mainpacket searchpath loaded).file? i = some file) :
    ∃ fileid file' diskfile, mainpacket.fileids[i]? = some fileid ∧
      createSourceFile packets mainpacket.blocksize searchpath fileid = some file' ∧
        file = file'.setBlocks mainpacket.blocksize ∧
      o.disk file'.targetfilename = some diskfile ∧ (∀ offset length, diskfile.readable offset length = true) ∧
      file'.Describes mainpacket.blocksize diskfile.contents ∧ file'.targetfilename ∉ loaded := by
  obtain ⟨fileid, -, hi, -⟩ := file?_prepare hfile
  obtain ⟨file', hcreated, hset⟩ := h.file hi
  obtain ⟨file'', diskfile, hcreated', hrest⟩ := h.files fileid (List.mem_of_getElem? hi)
  obtain rfl := Option.some.inj (hcreated.symm.trans hcreated')
  obtain rfl := Option.some.inj (hset.symm.trans hfile)
  exact ⟨fileid, file', diskfile, hi, hcreated, rfl, hrest⟩

theorem pending_setBlocks {blocksize : Nat} (hblocksize : 0 < blocksize) {file : SourceFile} {contents : List UInt8}
    (hfresh : file.Fresh) (h : file.Describes blocksize contents) :
      (file.setBlocks blocksize).Pending blocksize contents 0 := by
  refine ⟨⟨h.nonempty, h.fileSize, h.hashFull, h.hash16k, h.blocks⟩, hfresh.completefile, fun n hn => ?_⟩
  have hlt : n < (file.blockCount blocksize).toNat := by
    rw [(blockCount_of_describes hblocksize h).1, Nat.lt_div_iff_mul_lt hblocksize]
    omega
  refine ⟨_, SourceFile.getElem?_setBlocks.mpr ⟨hlt, rfl⟩, ?_, fun _ => rfl⟩
  unfold SourceFile.blockLength
  rw [h.fileSize]

theorem prepare_fields : (prepare packets mainpacket searchpath loaded).diskFileMap = loaded ∧
    (prepare packets mainpacket searchpath loaded).completefilecount = 0 := by
  unfold prepare Repairer.prepareVerificationHashTable Repairer.allocateSourceBlocks
  dsimp only
  split <;> exact ⟨rfl, rfl⟩

/-- Before the run no file has been found, and all will be. -/
theorem IntactSet.progress (h : IntactSet o packets mainpacket searchpath loaded) :
    Repairer.Progress o (prepare packets mainpacket searchpath loaded)
      (prepare packets mainpacket searchpath loaded).sortedFiles
      (prepare packets mainpacket searchpath loaded) := by
  refine ⟨rfl, ?_, fun f hf => ?_, fun f hf => ?_, fun i file hfile hi => ?_⟩
  · rw [prepare_fields.2, eq_comm, List.countP_eq_zero]
    intro file hmem hcomplete
    obtain ⟨i, hi⟩ := List.mem_iff_getElem?.mp hmem
    obtain ⟨f, d, rfl, hd, -⟩ := status_eq_complete (of_decide_eq_true hcomplete)
    have hfile : (prepare packets mainpacket searchpath loaded).file? i = some f := by
      unfold Repairer.file?
      rw [hi]
      rfl
    obtain ⟨fileid, file', -, -, hcreated, rfl, -⟩ := h.made hfile
    cases (createSourceFile_fresh hcreated).completefile.symm.trans hd
  · obtain ⟨fileid, file', diskfile, -, -, hset, -, -, -, hnew⟩ := h.made (mem_sortedFiles hf)
    rw [prepare_fields.1, hset]
    exact hnew
  · obtain ⟨fileid, file', diskfile, -, hcreated, hset, hdisk, hread, hdescribes, -⟩ := h.made (mem_sortedFiles hf)
    refine ⟨f.2, diskfile, mem_sortedFiles hf, ?_, hread, ?_⟩
    · rw [hset]
      exact hdisk
    · rw [hset, Repairer.blocksize, mainpacket_prepare]
      exact pending_setBlocks mainpacket.blocksize_pos (createSourceFile_fresh hcreated) hdescribes
  · exact absurd rfl (hi (i, file) ((List.mergeSort_perm _ _).mem_iff.mpr (Repairer.mem_present.mpr hfile)))

theorem IntactSet.sorted_distinct (h : IntactSet o packets mainpacket searchpath loaded) :
    (prepare packets mainpacket searchpath loaded).sortedFiles.Pairwise fun f g =>
      f.1 ≠ g.1 ∧ f.2.targetfilename ≠ g.2.targetfilename := by
  refine (List.Perm.pairwise_iff (fun hne => ⟨hne.1.symm, hne.2.symm⟩) (List.mergeSort_perm _ _)).mpr ?_
  refine (Repairer.pairwise_present _).imp_of_mem fun {f g} hf hg hlt => ⟨Nat.ne_of_lt hlt, ?_⟩
  obtain ⟨a, f', -, ha, hcreateda, hsetf, -⟩ := h.made (Repairer.mem_present.mp hf)
  obtain ⟨b, g', -, hb, hcreatedb, hsetg, -⟩ := h.made (Repairer.mem_present.mp hg)
  rw [hsetf, hsetg]
  obtain ⟨hflt, rfl⟩ := List.getElem?_eq_some_iff.mp ha
  obtain ⟨hglt, rfl⟩ := List.getElem?_eq_some_iff.mp hb
  exact List.pairwise_iff_getElem.mp h.distinct _ _ hflt hglt hlt f' g' hcreateda hcreatedb

theorem tableExact_prepare : (prepare packets mainpacket searchpath loaded).TableExact := by
  intro crc hash
  rw [prepare, Repairer.lookup_prepareVerificationHashTable]
  rfl

theorem IntactSet.blockverifiable (h : IntactSet o packets mainpacket searchpath loaded) (hsome : mainpacket.fileids ≠ []) :
    (prepare packets mainpacket searchpath loaded).blockverifiable = true := by
  obtain ⟨fileid, hfileid⟩ := List.exists_mem_of_ne_nil _ hsome
  obtain ⟨file, _, hcreated, -, -, hdescribes, -⟩ := h.files fileid hfileid
  obtain ⟨packet, hpacket, -⟩ := hdescribes.blocks
  exact blockverifiable_prepare.mpr ⟨fileid, hfileid, file, hcreated, by rw [hpacket]; rfl⟩

/-- When every source file is complete, no repair is needed. -/
theorem result_of_all_complete {s : Repairer} (hall : ∀ file ∈ s.sourcefiles, Repairer.status file = .complete)
    (hle : s.mainpacket.recoverablefilecount ≤ s.sourcefiles.length) (dorepair : Bool) :
    s.updateVerificationResults.result dorepair = .eSuccess := by
  have hcomplete : s.sourcefiles.countP (Repairer.status · = .complete) = s.sourcefiles.length :=
    List.countP_eq_length.mpr fun file hfile => decide_eq_true (hall file hfile)
  have hnone : ∀ status, status ≠ .complete → s.sourcefiles.countP (Repairer.status · = status) = 0 := fun status hne => by
    rw [List.countP_eq_zero]
    intro file hfile hstatus
    exact hne ((of_decide_eq_true hstatus).symm.trans (hall file hfile))
  have hcount : ¬s.sourcefiles.countP (Repairer.status · = .complete) < s.mainpacket.recoverablefilecount := by
    rw [hcomplete]
    exact Nat.not_lt_of_le hle
  unfold Repairer.result Repairer.checkVerificationResults Repairer.updateVerificationResults
  dsimp only
  rw [hnone .renamed nofun, hnone .damaged nofun, hnone .missing nofun]
  simp [hcount]

theorem IntactSet.exists_file (h : IntactSet o packets mainpacket searchpath loaded) {i : Nat}
    (hlt : i < (prepare packets mainpacket searchpath loaded).sourcefiles.length) :
    ∃ file, (prepare packets mainpacket searchpath loaded).file? i = some file := by
  rw [length_prepare] at hlt
  obtain ⟨file, -, hfile⟩ := h.file (List.getElem?_eq_getElem hlt)
  exact ⟨_, hfile⟩

theorem IntactSet.verified (h : IntactSet o packets mainpacket searchpath loaded) :
    ∃ u, (prepare packets mainpacket searchpath loaded).verifySourceFiles o = (u, true) ∧
      Repairer.Progress o (prepare packets mainpacket searchpath loaded) [] u := by
  have hnone : (prepare packets mainpacket searchpath loaded).sourcefiles.any (·.isNone) = false := by
    rw [List.any_eq_false]
    intro file hmem
    obtain ⟨i, hi⟩ := List.mem_iff_getElem?.mp hmem
    obtain ⟨f, hf⟩ := h.exists_file (List.getElem?_eq_some_iff.mp hi).1
    obtain rfl : file = some f := Option.some.inj (hi.symm.trans (Option.join_eq_some_iff.mp hf))
    exact nofun
  unfold Repairer.verifySourceFiles
  rw [hnone, Bool.false_and, if_neg nofun]
  by_cases hsome : mainpacket.fileids = []
  · have hempty : (prepare packets mainpacket searchpath loaded).sourcefiles = [] :=
      List.eq_nil_of_length_eq_zero (by rw [length_prepare, hsome]; rfl)
    have hsorted : (prepare packets mainpacket searchpath loaded).sortedFiles = [] := by
      refine List.eq_nil_iff_forall_not_mem.mpr fun f hf => ?_
      have hfile := mem_sortedFiles hf
      unfold Repairer.file? at hfile
      rw [hempty] at hfile
      cases hfile
    exact ⟨_, by rw [hsorted]; rfl, hsorted ▸ h.progress⟩
  · exact Repairer.Progress.run tableExact_prepare (h.allocated hsome).1 (h.blockverifiable hsome)
      h.sorted_distinct true h.progress

end

/-- Whatever has been verified: a search of the hash table by a checksum and, from where that ends, by a hash too gives the entries
    of all blocks that have both, in the order of the files and of their blocks. -/
theorem verification_table_exact {o : Outside} {packets : Packets} {mainpacket : MainPacket} {searchpath : Text}
    {loaded : List Text} {s : Repairer} (h : Repairer.Running o (prepare packets mainpacket searchpath loaded) s) (crc : UInt32)
    (hash : List UInt8) : s.verificationhashtable.lookup crc hash =
      (s.present.flatMap fun file => Repairer.entries file.1 file.2).filter fun e => e.crc = crc ∧ e.hash = hash :=
  tableExact_prepare.of_plan h.plan crc hash

theorem verification_table_exact_sample : (prepare samplePackets sampleMain [] []).verificationhashtable.lookup
    (crcOf [5, 6, 7, 8]) (md5Of [5, 6, 7, 8]) = [⟨0, 1, crcOf [5, 6, 7, 8], md5Of [5, 6, 7, 8]⟩] := by
  rw [verification_table_exact (o := sampleOutside) ⟨rfl, sound_prepare _⟩]
  decide +kernel

/-- When all files of a set are on disk as they are described, block by block and as a whole, and can be read, the verification
    succeeds, whatever other files there are. -/
theorem IntactSet.eSuccess {o : Outside} {packets : Packets} {mainpacket : MainPacket} {searchpath : Text} {loaded : List Text}
    (h : IntactSet o packets mainpacket searchpath loaded) (filenames : List Text) (extrafilenamemap : List (Text × Text))
    (dorepair : Bool) :
    (process o packets searchpath loaded filenames extrafilenamemap dorepair).2 = .eSuccess := by
  obtain ⟨u, hverified, hprogress⟩ := h.verified
  have hlength : u.sourcefiles.length = mainpacket.fileids.length := (length_of_plan hprogress.plan).trans length_prepare
  have hmainpacket : u.mainpacket = mainpacket := by
    have hmainpacket := congrArg Repairer.mainpacket hprogress.plan
    exact hmainpacket.trans mainpacket_prepare
  have hall : ∀ file ∈ u.sourcefiles, Repairer.status file = .complete := by
    intro file hmem
    obtain ⟨i, hi⟩ := List.mem_iff_getElem?.mp hmem
    have hlt := (List.getElem?_eq_some_iff.mp hi).1
    rw [hlength, ← @length_prepare packets mainpacket searchpath loaded] at hlt
    obtain ⟨f, hf⟩ := h.exists_file hlt
    have hsame : (u.file? i).map SourceFile.plan = some f.plan := by
      rw [← Repairer.file?_plan, hprogress.plan, Repairer.file?_plan, hf]
      rfl
    obtain ⟨f', hf', -⟩ := Option.map_eq_some_iff.mp hsame
    obtain rfl : file = some f' := Option.some.inj (hi.symm.trans (Option.join_eq_some_iff.mp hf'))
    exact hprogress.complete i f' hf' fun f hf => absurd hf List.not_mem_nil
  have hcount : ¬u.completefilecount < u.mainpacket.recoverablefilecount := by
    rw [hprogress.counted, List.countP_eq_length.mpr fun file hfile => decide_eq_true (hall file hfile), hlength, hmainpacket,
      h.recoverable]
    exact Nat.lt_irrefl _
  unfold process
  rw [h.main]
  dsimp only
  rw [hverified]
  dsimp only
  rw [if_neg hcount]
  exact result_of_all_complete hall (by rw [hmainpacket, hlength, h.recoverable]) dorepair

theorem intact_set_verifies {o : Outside} {packets : Packets} {mainpacket : MainPacket} {searchpath : Text} {loaded : List Text}
    (h : IntactSet o packets mainpacket searchpath loaded) (filenames : List Text) (extrafilenamemap : List (Text × Text))
    (dorepair : Bool) :
    (process o packets searchpath loaded filenames extrafilenamemap dorepair).2 = .eSuccess :=
  h.eSuccess filenames extrafilenamemap dorepair

theorem sample_describes {file : SourceFile}
    (hdescription : file.descriptionpacket = ⟨['a'], 9, md5Of sampleContents, md5Of sampleContents⟩)
    (hpacket : file.verificationpacket = some ⟨sampleEntries, sampleEntries_pos, sampleEntries_le⟩) :
    file.Describes 4 sampleContents := by
  refine ⟨nofun, by rw [hdescription]; rfl, by rw [hdescription], by rw [hdescription]; rfl, _, hpacket, fun n => ?_⟩
  rcases n with _ | _ | _ | n
  · rfl
  · rfl
  · rfl
  · have hbeyond : ¬(n + 3) * 4 < 9 := by omega
    exact (if_neg hbeyond).symm

theorem sample_intact : IntactSet sampleOutside samplePackets sampleMain [] [] := by
  have hcreated : ∃ file, createSourceFile samplePackets 4 [] [1] = some file ∧ file.targetfilename = ['a'] ∧
      file.descriptionpacket = ⟨['a'], 9, md5Of sampleContents, md5Of sampleContents⟩ ∧
      file.verificationpacket = some ⟨sampleEntries, sampleEntries_pos, sampleEntries_le⟩ := ⟨_, rfl, rfl, rfl, rfl⟩
  obtain ⟨file, hfile, hname, hdescription, hpacket⟩ := hcreated
  refine ⟨rfl, rfl, fun fileid hfileid => ?_, List.pairwise_singleton _ _⟩
  obtain rfl := List.mem_singleton.mp hfileid
  exact ⟨file, { object := 0, contents := sampleContents }, hfile, by rw [hname]; rfl, fun _ _ => rfl,
    sample_describes hdescription hpacket, List.not_mem_nil⟩

theorem intact_set_verifies_sample : (process sampleOutside samplePackets [] [] [['b']] [(['a'], ['c'])] false).2 = .eSuccess :=
  intact_set_verifies sample_intact [['b']] [(['a'], ['c'])] false

end Nget.Par2

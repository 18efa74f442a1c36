import Nget.Theorems.ScanDataFile

/-! A whole verification: what is located or complete in the end is on disk, and success means that every file of the set is. Of a
    set without any verification packet this goes for the first 16k of a file and its size. -/

namespace Nget.Par2

/-! ### Hashing a whole file -/

namespace Repairer

/-- The hashes of what has been read, up to an offset. -/
structure HashedTo (contents : List UInt8) (offset : Nat) (hashes : MD5Context × List UInt8) : Prop where
  full : hashes.1 = .of (contents.take offset)
  first : 16384 ≤ offset → hashes.2 = md5Of (contents.take 16384)

theorem HashedTo.read {diskfile : DiskFile} {offset want : Nat} {context : MD5Context} {hash16k buffer : List UInt8}
    (h : HashedTo diskfile.contents offset (context, hash16k)) (hread : diskfile.read offset want = some buffer) :
    HashedTo diskfile.contents (offset + want)
      (if offset < 16384 && 16384 ≤ offset + want then
        (if 16384 < offset + want then (context.update (buffer.take (16384 - offset))).update (buffer.drop (16384 - offset))
          else context.update (buffer.take (16384 - offset)), (context.update (buffer.take (16384 - offset))).final)
      else (context.update buffer, hash16k)) := by
  have hbuffer : buffer = (diskfile.contents.drop offset).take want := by
    unfold DiskFile.read at hread
    split at hread
    · exact (Option.some.inj hread).symm
    · cases hread
  have hcontext : context = .of (diskfile.contents.take offset) := h.full
  have hall : diskfile.contents.take (offset + want) = diskfile.contents.take offset ++ buffer := by
    rw [hbuffer, List.take_add]
  by_cases hreach : offset < 16384 ∧ 16384 ≤ offset + want
  · rw [if_pos (by simpa using hreach)]
    have hcut : diskfile.contents.take 16384 = diskfile.contents.take offset ++ buffer.take (16384 - offset) := by
      rw [hbuffer, List.take_take, Nat.min_eq_left (by omega), ← List.take_add, Nat.add_sub_cancel' (Nat.le_of_lt hreach.1)]
    have hmark : context.update (buffer.take (16384 - offset)) = .of (diskfile.contents.take 16384) := by
      rw [hcontext, MD5Context.of_update, ← hcut]
    refine ⟨?_, fun _ => ?_⟩
    · dsimp only
      rw [hmark]
      split
      · rw [MD5Context.of_update, hcut, List.append_assoc, List.take_append_drop, ← hall]
      · next hend => rw [Nat.le_antisymm (Nat.le_of_not_lt hend) hreach.2]
    · dsimp only
      rw [hmark, MD5Context.of_final]
  · rw [if_neg (by simpa using hreach)]
    refine ⟨?_, fun hle => ?_⟩
    · dsimp only
      rw [hcontext, MD5Context.of_update, ← hall]
    · exact h.first (by omega)

theorem hashFileLoop_hashed {diskfile : DiskFile} {buffersize : Nat} (hpos : 0 < buffersize) (reads : Nat) :
    ∀ {offset : Nat} {hashes result : MD5Context × List UInt8}, HashedTo diskfile.contents offset hashes →
      offset ≤ diskfile.fileSize → diskfile.fileSize ≤ offset + reads →
      hashFileLoop diskfile buffersize reads offset hashes = some result →
      HashedTo diskfile.contents diskfile.fileSize result := by
  induction reads with
  | zero =>
    intro offset hashes result h hle hreads hrun
    cases hrun
    rwa [Nat.le_antisymm hle hreads] at h
  | succ reads ih =>
    intro offset hashes result h hle hreads hrun
    rcases hashes with ⟨context, hash16k⟩
    unfold hashFileLoop at hrun
    split at hrun
    · next hinside =>
      dsimp only at hrun
      have hwant : 0 < min buffersize (diskfile.fileSize - offset) := lt_min hpos (Nat.sub_pos_of_lt hinside)
      have hend : offset + min buffersize (diskfile.fileSize - offset) ≤ diskfile.fileSize := by omega
      split at hrun
      · cases hrun
      · next buffer hread =>
        have hnext := h.read hread
        split at hrun
        · next hreach =>
          rw [if_pos hreach] at hnext
          exact ih hnext hend (by omega) hrun
        · next hreach =>
          rw [if_neg hreach] at hnext
          exact ih hnext hend (by omega) hrun
    · next hout =>
      cases hrun
      rwa [Nat.le_antisymm hle (Nat.le_of_not_lt hout)] at h

/-- Of the two hashes, the one of the first 16k is that of the file. -/
theorem hashFile_of {uninitialised hashes : FileHashes} {diskfile : DiskFile} {s : Repairer}
    (h : s.hashFile uninitialised diskfile = some hashes) : hashes.Of false diskfile.contents := by
  obtain ⟨⟨context, hash16k⟩, hrun, hresult⟩ := Option.bind_eq_some_iff.mp h
  have hhashed : HashedTo diskfile.contents diskfile.fileSize (context, hash16k) := by
    by_cases hempty : diskfile.fileSize = 0
    · rw [hempty] at hrun ⊢
      cases hrun
      exact ⟨MD5Context.new_eq, fun hle => absurd hle (by decide)⟩
    · have hpos : 0 < min (1024 * 1024) (min s.blocksize diskfile.fileSize) :=
        lt_min (by decide) (lt_min s.mainpacket.blocksize_pos (Nat.pos_of_ne_zero hempty))
      exact hashFileLoop_hashed hpos _ ⟨MD5Context.new_eq, fun hle => absurd hle (by decide)⟩ (Nat.zero_le _)
        (Nat.le_add_left _ _) hrun
  have hfull : context = .of diskfile.contents := hhashed.full.trans (congrArg _ List.take_length)
  cases hresult
  refine fun _ => ⟨nofun, ?_⟩
  dsimp only
  rw [hfull, MD5Context.of_final]
  split
  · next hshort => rw [List.take_of_length_le (Nat.le_of_lt hshort)]
  · next hlong => exact hhashed.first (Nat.le_of_not_lt hlong)

/-! ### What is done with one file -/

section
variable {o : Outside} {s t : Repairer} {diskfile : DiskFile} {hashes : FileHashes}

theorem Sound.setComplete (h : s.Sound o) (hopened : Opened o s.diskFileMap diskfile.object diskfile.contents) {i : Nat}
    (hintact : ∀ file, s.file? i = some file → file.descriptionpacket.Intact s.blockverifiable diskfile.contents) :
    (s.setComplete diskfile.object i).Sound o := by
  refine h.modifyFile fun file hfile => ?_
  have hfilesound := h i file hfile
  refine ⟨hfilesound.length, fun n b d hb hd => ?_, fun d hd => ?_, hfilesound.target⟩
  · obtain ⟨contents, hcontents, hfound⟩ := hfilesound.located n b d hb hd
    exact ⟨contents, hcontents, ⟨hfound.entry, hfound.whole⟩⟩
  · cases hd
    exact ⟨diskfile.contents, hopened, hintact file hfile⟩

theorem Sound.locateAll (h : s.Sound o) (hopened : Opened o s.diskFileMap diskfile.object diskfile.contents) {i : Nat}
    (hintact : ∀ file, s.file? i = some file →
      file.verificationpacket = none ∧ file.descriptionpacket.Intact s.blockverifiable diskfile.contents) :
    (s.modifyFile i (Repairer.locateAll diskfile.object s.blocksize)).Sound o := by
  refine h.modifyFile fun file hfile => ?_
  have hfilesound := h i file hfile
  have hblock : ∀ n b, (Repairer.locateAll diskfile.object s.blocksize file).sourceblocks[n]? = some b →
      ∃ b', file.sourceblocks[n]? = some b' ∧ b.length = file.blockLength s.blocksize n ∧
        (b.diskfile = some diskfile.object ∧ b.offset = n * s.blocksize ∨ b = b') := by
    intro n b hb
    unfold Repairer.locateAll at hb
    rw [List.getElem?_mapIdx] at hb
    obtain ⟨b', hb', rfl⟩ := Option.map_eq_some_iff.mp hb
    refine ⟨b', hb', ?_⟩
    split
    · exact ⟨rfl, .inl ⟨rfl, rfl⟩⟩
    · exact ⟨hfilesound.length n b' hb', .inr rfl⟩
  obtain ⟨hnone, hcontents⟩ := hintact file hfile
  refine ⟨fun n b hb => (hblock n b hb).choose_spec.2.1, fun n b d hb hd => ?_, hfilesound.complete, hfilesound.target⟩
  obtain ⟨b', hb', -, ⟨hobject, hoffset⟩ | rfl⟩ := hblock n b hb
  · obtain rfl : diskfile.object = d := Option.some.inj (hobject.symm.trans hd)
    refine ⟨diskfile.contents, hopened, ⟨fun packet hpacket => ?_, fun _ => ⟨hcontents, hoffset⟩⟩⟩
    cases hnone.symm.trans hpacket
  · obtain ⟨contents, hopened', hfound⟩ := hfilesound.located n b d hb' hd
    exact ⟨contents, hopened', ⟨hfound.entry, hfound.whole⟩⟩

theorem plan_setComplete (s : Repairer) (d i : Nat) : (s.setComplete d i).plan = s.plan :=
  s.plan_modifyFile i fun _ _ => rfl

theorem Sound.plan_locateAll (h : s.Sound o) (d i : Nat) :
    (s.modifyFile i (Repairer.locateAll d s.blocksize)).plan = s.plan := by
  refine s.plan_modifyFile i fun file hfile => ?_
  unfold SourceFile.plan Repairer.locateAll
  dsimp only
  congr 1
  refine List.ext_getElem? fun n => ?_
  rw [List.getElem?_map, List.getElem?_map, List.getElem?_mapIdx]
  cases hb : file.sourceblocks[n]? with
  | none => rfl
  | some b =>
    have hlength : b.length = file.blockLength s.blocksize n := (h i file hfile).length n b hb
    rw [Option.map_some, Option.map_some, Option.map_some, hlength]
    split
    · rfl
    · exact congrArg (fun length => some ({ length } : DataBlock)) hlength

/-- The source files of `unverifiablesourcefiles` have no verification packet. -/
def Unverifiable (s : Repairer) : Prop :=
  ∀ i ∈ s.unverifiablesourcefiles, ∀ file, s.file? i = some file → file.verificationpacket = none

theorem Unverifiable.of_plan (h : s.Unverifiable) (hplan : t.plan = s.plan) : t.Unverifiable := by
  intro i hi file hfile
  have hlist : t.unverifiablesourcefiles = s.unverifiablesourcefiles := by
    have hlist := congrArg unverifiablesourcefiles hplan
    exact hlist
  have hsame : (s.file? i).map SourceFile.plan = some file.plan := by
    rw [← file?_plan, ← hplan, file?_plan, hfile]
    rfl
  obtain ⟨file', hfile', hp⟩ := Option.map_eq_some_iff.mp hsame
  have hpacket := congrArg SourceFile.verificationpacket hp
  exact hpacket.symm.trans (h i (hlist ▸ hi) file' hfile')

theorem Sound.matchUnverifiable (h : s.Sound o) (hun : s.Unverifiable)
    (hopened : Opened o s.diskFileMap diskfile.object diskfile.contents)
    (hhashes : hashes.Of s.blockverifiable diskfile.contents) : Scan.Left o s (s.matchUnverifiable diskfile hashes) := by
  unfold Repairer.matchUnverifiable
  split
  · exact ⟨rfl, rfl, h⟩
  · next i hfind =>
    have hintact : ∀ file, s.file? i = some file →
        file.descriptionpacket.Intact s.blockverifiable diskfile.contents := fun file hfile => by
      have hmatch := List.find?_some hfind
      rw [hfile, Option.any_some, Bool.and_eq_true] at hmatch
      exact Intact.of_describes hmatch.2 hhashes
    have hcomplete := h.setComplete hopened hintact
    have hplan := plan_setComplete s diskfile.object i
    dsimp only
    split
    · refine ⟨(hcomplete.plan_locateAll _ _).trans hplan, rfl, hcomplete.locateAll hopened fun file hfile => ?_⟩
      rw [Repairer.setComplete, file?_modifyFile, if_pos rfl] at hfile
      obtain ⟨file', hfile', rfl⟩ := Option.map_eq_some_iff.mp hfile
      exact ⟨hun i (List.mem_of_find?_eq_some hfind) file' hfile', hintact file' hfile'⟩
    · exact ⟨hplan, rfl, hcomplete⟩

theorem Sound.verifyDataFile (h : s.Sound o) (htable : s.TableSound) (hun : s.Unverifiable)
    (hopened : Opened o s.diskFileMap diskfile.object diskfile.contents) (uninitialised : FileHashes) (sourcefile : Option Nat) :
    Scan.Left o s (s.verifyDataFile uninitialised diskfile sourcefile).1 := by
  unfold Repairer.verifyDataFile
  obtain ⟨herror, hok⟩ := scanDataFile_sound h htable hopened uninitialised sourcefile
  split
  · next hverifiable =>
    split
    · next u hu => exact herror u hu
    · next u _ _ hu => exact (hok u _ _ _ hu).1
    · next u _ hu => exact (hok u _ _ _ hu).1
    · next u i _ hu =>
      obtain ⟨hleft, -, hfull⟩ := hok u _ _ _ hu
      obtain ⟨j, file, hj, hfile, hintact⟩ := hfull rfl
      cases hj
      refine ⟨(plan_setComplete _ _ _).trans hleft.plan, hleft.names, ?_⟩
      refine hleft.sound.setComplete (by rw [hleft.names]; exact hopened) fun file' hfile' => ?_
      rw [hfile] at hfile'
      cases hfile'
      rw [blockverifiable_of_plan hleft.plan, hverifiable]
      exact hintact
    · next u _ hashes hu =>
      obtain ⟨hleft, hhashes, -⟩ := hok u _ _ _ hu
      have hmatched := hleft.sound.matchUnverifiable (hun.of_plan hleft.plan) (by rw [hleft.names]; exact hopened)
        (by rw [blockverifiable_of_plan hleft.plan, hverifiable]; exact hhashes)
      exact ⟨hmatched.plan.trans hleft.plan, hmatched.names.trans hleft.names, hmatched.sound⟩
  · next hunverifiable =>
    split
    · exact ⟨rfl, rfl, h⟩
    · split
      · exact ⟨rfl, rfl, h⟩
      · next hashes hhashes =>
        exact h.matchUnverifiable hun hopened (by rw [Bool.eq_false_of_not_eq_true hunverifiable]; exact hashFile_of hhashes)

end

/-! ### A run -/

/-- What holds of the repairer whenever a file has been dealt with. -/
structure Running (o : Outside) (s t : Repairer) : Prop where
  plan : t.plan = s.plan
  sound : t.Sound o

section
variable {o : Outside} {s t : Repairer}

theorem opened_append {names : List Text} {d : Nat} {contents : List UInt8} (h : Opened o names d contents) (filename : Text) :
    Opened o (names ++ [filename]) d contents := by
  obtain ⟨name, diskfile, hname, hdisk, hcontents⟩ := h
  exact ⟨name, diskfile, List.getElem?_append_left (List.getElem?_eq_some_iff.mp hname).1 ▸ hname, hdisk, hcontents⟩

theorem Sound.insertDiskFile (h : s.Sound o) (filename : Text) : (s.insertDiskFile filename).Sound o := by
  intro i file hfile
  have hfilesound := h i file hfile
  refine ⟨hfilesound.length, fun n b d hb hd => ?_, fun d hd => ?_, fun d hd => ?_⟩
  · obtain ⟨contents, hopened, hfound⟩ := hfilesound.located n b d hb hd
    exact ⟨contents, opened_append hopened filename, hfound⟩
  · obtain ⟨contents, hopened, hintact⟩ := hfilesound.complete d hd
    exact ⟨contents, opened_append hopened filename, hintact⟩
  · have htarget := hfilesound.target d hd
    exact List.getElem?_append_left (List.getElem?_eq_some_iff.mp htarget).1 ▸ htarget

theorem Sound.setTarget (h : s.Sound o) {d i : Nat}
    (hname : ∀ file, s.file? i = some file → s.diskFileMap[d]? = some file.targetfilename) : (s.setTarget d i).Sound o := by
  refine h.modifyFile fun file hfile => ?_
  have hfilesound := h i file hfile
  refine ⟨hfilesound.length, fun n b d' hb hd' => ?_, hfilesound.complete, fun d' hd' => ?_⟩
  · obtain ⟨contents, hopened, hfound⟩ := hfilesound.located n b d' hb hd'
    exact ⟨contents, hopened, ⟨hfound.entry, hfound.whole⟩⟩
  · cases hd'
    exact hname file hfile

theorem plan_setTarget (s : Repairer) (d i : Nat) : (s.setTarget d i).plan = s.plan := s.plan_modifyFile i fun _ _ => rfl

theorem opened_of_openFile {filename : Text} {diskfile : DiskFile} (h : s.openFile o filename = some diskfile) :
    diskfile.object = s.diskFileMap.length ∧ Opened o (s.diskFileMap ++ [filename]) diskfile.object diskfile.contents := by
  obtain ⟨found, hfound, rfl⟩ := Option.map_eq_some_iff.mp h
  exact ⟨rfl, filename, found, List.getElem?_concat_length, hfound, rfl⟩

theorem Running.updated (h : Running o s t) : Running o s t.updateVerificationResults := ⟨h.plan, h.sound⟩

theorem targetfilename_of_plan (hplan : t.plan = s.plan) {i : Nat} {file file' : SourceFile} (hs : s.file? i = some file)
    (ht : t.file? i = some file') : file'.targetfilename = file.targetfilename := by
  have hsame : some file'.plan = some file.plan := by
    rw [← Option.map_some, ← ht, ← file?_plan, hplan, file?_plan, hs]
    rfl
  have hname := congrArg SourceFile.targetfilename (Option.some.inj hsame)
  exact hname

variable (htable : s.TableSound) (hun : s.Unverifiable)
include htable hun

theorem Running.verifyExtraFile (h : Running o s t) (filename : Text) : Running o s (t.verifyExtraFile o filename) := by
  unfold Repairer.verifyExtraFile
  split
  · exact h
  · split
    · exact h
    · next diskfile hopen =>
      have hplan : (t.insertDiskFile filename).plan = s.plan := h.plan
      have hleft := (h.sound.insertDiskFile filename).verifyDataFile (htable.of_plan hplan) (hun.of_plan hplan)
        (opened_of_openFile hopen).2 (o.uninitialised filename) none
      exact Running.updated ⟨hleft.plan.trans hplan, hleft.sound⟩

theorem Running.verifyExtraWhile (enough : Nat) (filenames : List Text) :
    ∀ {t : Repairer}, Running o s t → Running o s (t.verifyExtraWhile o enough filenames) := by
  induction filenames with
  | nil => exact fun h => h
  | cons filename filenames ih =>
    intro t h
    unfold Repairer.verifyExtraWhile
    rw [List.foldl_cons]
    split
    · exact ih (h.verifyExtraFile htable hun filename)
    · exact ih h

theorem Running.verifyLike (h : Running o s t) (extrafilenamemap : List (Text × Text)) (i : Nat) :
    Running o s (verifyLike o extrafilenamemap t i) := by
  unfold Repairer.verifyLike
  split
  · exact h
  · split
    · exact h.verifyExtraWhile htable hun _ _
    · exact h

theorem Running.verifyExtraFiles (h : Running o s t) (searchpath : Text) (extrafiles : List Text)
    (extrafilenamemap : List (Text × Text)) : Running o s (t.verifyExtraFiles o searchpath extrafiles extrafilenamemap) := by
  have hlike : ∀ (is : List Nat) {t : Repairer}, Running o s t →
      Running o s (is.foldl (Repairer.verifyLike o extrafilenamemap) t) := fun is => by
    induction is with
    | nil => exact fun h => h
    | cons i is ih => exact fun h => ih (h.verifyLike htable hun extrafilenamemap i)
  exact (hlike _ (h.verifyExtraWhile htable hun _ _)).verifyExtraWhile htable hun _ _

theorem Running.verifySorted (files : List (Nat × SourceFile)) (hfiles : ∀ f ∈ files, s.file? f.1 = some f.2) :
    ∀ {t : Repairer} (finalresult : Bool), Running o s t → Running o s (t.verifySorted o files finalresult).1 := by
  induction files with
  | nil => exact fun _ h => h
  | cons f files ih =>
    intro t finalresult h
    unfold Repairer.verifySorted
    dsimp only
    split
    · exact h
    · split
      · exact ih (fun f hf => hfiles f (List.mem_cons_of_mem _ hf)) _ h
      · next diskfile hopen =>
        refine ih (fun f hf => hfiles f (List.mem_cons_of_mem _ hf)) _ ?_
        obtain ⟨hobject, hopened⟩ := opened_of_openFile hopen
        have hplan : ((t.insertDiskFile f.2.targetfilename).setTarget diskfile.object f.1).plan = s.plan :=
          (plan_setTarget _ _ _).trans h.plan
        have hsound : ((t.insertDiskFile f.2.targetfilename).setTarget diskfile.object f.1).Sound o := by
          refine (h.sound.insertDiskFile _).setTarget fun file hfile => ?_
          rw [hobject, targetfilename_of_plan h.plan (hfiles f List.mem_cons_self) hfile]
          exact List.getElem?_concat_length
        have hleft := hsound.verifyDataFile (htable.of_plan hplan) (hun.of_plan hplan) hopened
          (o.uninitialised f.2.targetfilename) (some f.1)
        exact Running.updated ⟨hleft.plan.trans hplan, hleft.sound⟩

end
end Repairer

/-! ### The repairer before the run -/

section
variable {packets : Packets} {mainpacket : MainPacket} {searchpath : Text} {loaded : List Text}

/-- A source file as it is made: nothing was found of it. -/
structure SourceFile.Fresh (file : SourceFile) : Prop where
  sourceblocks : file.sourceblocks = []
  targetexists : file.targetexists = false
  targetfile : file.targetfile = none
  completefile : file.completefile = none

theorem createSourceFile_fresh {blocksize : Nat} {fileid : List UInt8} {file : SourceFile}
    (h : createSourceFile packets blocksize searchpath fileid = some file) : file.Fresh := by
  obtain ⟨⟨id, found⟩, -, h⟩ := Option.bind_eq_some_iff.mp h
  obtain ⟨descriptionpacket, -, h⟩ := Option.bind_eq_some_iff.mp h
  split at h
  · cases h
    exact ⟨rfl, rfl, rfl, rfl⟩
  · cases h

/-- Blocks are allocated to the files that are recoverable, if there are any blocks. -/
theorem getElem?_allocateSourceBlocks (s : Repairer) (i : Nat) : s.allocateSourceBlocks.sourcefiles[i]? =
    (s.sourcefiles[i]?).map (Option.map (if i < s.mainpacket.recoverablefilecount ∧ 0 < s.allocateSourceBlocks.sourceblockcount
      then SourceFile.setBlocks s.blocksize else id)) := by
  unfold Repairer.allocateSourceBlocks
  dsimp only
  split
  · next hblocks =>
    dsimp only
    rw [List.getElem?_mapIdx]
    by_cases hin : i < s.mainpacket.recoverablefilecount
    · rw [if_pos ⟨hin, hblocks⟩]
      simp only [if_pos hin]
    · rw [if_neg fun h => hin h.1, Option.map_id_fun]
      simp only [if_neg hin]
      rfl
  · next hblocks =>
    rw [if_neg fun h => hblocks h.2]
    rcases s.sourcefiles[i]? with _ | _ | file <;> rfl

theorem file?_prepare {i : Nat} {file : SourceFile} (h : (prepare packets mainpacket searchpath loaded).file? i = some file) :
    ∃ fileid file', mainpacket.fileids[i]? = some fileid ∧
      createSourceFile packets mainpacket.blocksize searchpath fileid = some file' ∧
      (¬(i < mainpacket.recoverablefilecount ∧ 0 < (prepare packets mainpacket searchpath loaded).sourceblockcount) ∧ file = file' ∨
        file = file'.setBlocks mainpacket.blocksize) := by
  have hfile := Option.join_eq_some_iff.mp h
  change (Repairer.allocateSourceBlocks _).sourcefiles[i]? = _ at hfile
  rw [getElem?_allocateSourceBlocks, List.getElem?_map] at hfile
  dsimp only at hfile
  obtain ⟨found, hfound, hmade⟩ := Option.map_eq_some_iff.mp hfile
  obtain ⟨fileid, hfileid, rfl⟩ := Option.map_eq_some_iff.mp hfound
  obtain ⟨file', hcreated, hmade⟩ := Option.map_eq_some_iff.mp hmade
  refine ⟨fileid, file', hfileid, hcreated, ?_⟩
  split at hmade
  · exact .inr hmade.symm
  · next hout => exact .inl ⟨hout, hmade.symm⟩

theorem exists_file?_prepare {i : Nat} {fileid : List UInt8} {file : SourceFile} (hi : mainpacket.fileids[i]? = some fileid)
    (hcreated : createSourceFile packets mainpacket.blocksize searchpath fileid = some file) :
    ∃ made, (prepare packets mainpacket searchpath loaded).file? i = some made ∧
      made.verificationpacket = file.verificationpacket := by
  unfold prepare Repairer.prepareVerificationHashTable Repairer.file?
  dsimp only
  rw [getElem?_allocateSourceBlocks, List.getElem?_map, hi, Option.map_some, Option.map_some, hcreated]
  split
  · exact ⟨_, rfl, rfl⟩
  · exact ⟨_, rfl, rfl⟩

/-- Files are scanned if there is a file with a verification packet in the set. -/
theorem blockverifiable_prepare : (prepare packets mainpacket searchpath loaded).blockverifiable = true ↔
    ∃ fileid ∈ mainpacket.fileids, ∃ file, createSourceFile packets mainpacket.blocksize searchpath fileid = some file ∧
      file.verificationpacket.isSome = true := by
  have hpresent : (prepare packets mainpacket searchpath loaded).blockverifiable = true ↔
      ∃ f ∈ (prepare packets mainpacket searchpath loaded).present, f.2.verificationpacket.isSome = true := by
    change (!((prepare packets mainpacket searchpath loaded).present.filter (·.2.verificationpacket.isSome)).isEmpty) = true ↔ _
    rw [Bool.not_eq_true', List.isEmpty_eq_false_iff, Ne, List.filter_eq_nil_iff]
    push Not
    rfl
  rw [hpresent]
  constructor
  · rintro ⟨⟨i, made⟩, hmem, hsome⟩
    obtain ⟨fileid, file, hi, hcreated, ⟨-, rfl⟩ | rfl⟩ := file?_prepare (Repairer.mem_present.mp hmem)
    · exact ⟨fileid, List.mem_of_getElem? hi, made, hcreated, hsome⟩
    · exact ⟨fileid, List.mem_of_getElem? hi, file, hcreated, hsome⟩
  · rintro ⟨fileid, hmem, file, hcreated, hsome⟩
    obtain ⟨i, hi⟩ := List.mem_iff_getElem?.mp hmem
    obtain ⟨made, hmade, hsame⟩ := exists_file?_prepare hi hcreated
    exact ⟨(i, made), Repairer.mem_present.mpr hmade, by rw [hsame]; exact hsome⟩

theorem SourceFile.getElem?_setBlocks {blocksize n : Nat} {file : SourceFile} {b : DataBlock} :
    (file.setBlocks blocksize).sourceblocks[n]? = some b ↔
      n < (file.blockCount blocksize).toNat ∧ b = { length := file.blockLength blocksize n } := by
  unfold SourceFile.setBlocks
  dsimp only
  rw [List.getElem?_map, Option.map_eq_some_iff]
  refine ⟨fun ⟨m, hm, hb⟩ => ?_, fun ⟨hlt, hb⟩ => ⟨n, List.getElem?_range hlt, hb.symm⟩⟩
  obtain ⟨hlt, rfl⟩ := List.getElem?_eq_some_iff.mp hm
  rw [List.length_range] at hlt
  rw [List.getElem_range] at hb
  exact ⟨hlt, hb.symm⟩

theorem mainpacket_prepare : (prepare packets mainpacket searchpath loaded).mainpacket = mainpacket := by
  unfold prepare Repairer.prepareVerificationHashTable Repairer.allocateSourceBlocks
  dsimp only
  split <;> rfl

theorem sound_prepare (o : Outside) : (prepare packets mainpacket searchpath loaded).Sound o := by
  intro i file hfile
  obtain ⟨fileid, file', -, hcreated, hmade⟩ := file?_prepare hfile
  have hfresh := createSourceFile_fresh hcreated
  have hcomplete := hfresh.completefile
  have htarget := hfresh.targetfile
  rw [Repairer.blocksize, mainpacket_prepare]
  rcases hmade with ⟨-, rfl⟩ | rfl
  · have hnone : ∀ {n : Nat} {b : DataBlock}, file.sourceblocks[n]? ≠ some b := fun {n b} hb => by
      rw [hfresh.sourceblocks] at hb
      cases hb
    refine ⟨fun n b hb => absurd hb hnone, fun n b d hb => absurd hb hnone, fun d hd => ?_, fun d hd => ?_⟩
    · cases hcomplete.symm.trans hd
    · cases htarget.symm.trans hd
  · refine ⟨fun n b hb => ?_, fun n b d hb hd => ?_, fun d hd => ?_, fun d hd => ?_⟩
    · rw [(SourceFile.getElem?_setBlocks.mp hb).2]; rfl
    · rw [(SourceFile.getElem?_setBlocks.mp hb).2] at hd; cases hd
    · cases hcomplete.symm.trans hd
    · cases htarget.symm.trans hd

theorem tableSound_prepare : (prepare packets mainpacket searchpath loaded).TableSound := by
  intro crc hash e he
  rw [prepare, Repairer.lookup_prepareVerificationHashTable, List.mem_filter, decide_eq_true_eq] at he
  obtain ⟨file, packet, entry, hfile, hentry⟩ := Repairer.isEntry_of_mem he.1
  exact ⟨he.2, file, packet, entry, hfile, hentry⟩

theorem unverifiable_prepare : (prepare packets mainpacket searchpath loaded).Unverifiable := by
  intro i hi file hfile
  unfold prepare Repairer.prepareVerificationHashTable at hi
  dsimp only at hi
  obtain ⟨⟨j, file'⟩, hmem, rfl⟩ := List.mem_map.mp hi
  obtain ⟨hpresent, hnone⟩ := List.mem_filter.mp hmem
  have hsame := (Repairer.mem_present.mp hpresent).symm.trans hfile
  cases hsame
  exact Option.isNone_iff_eq_none.mp hnone

/-- All files of the set are there in the end, or a repair is needed. -/
theorem all_complete_of_eSuccess {s : Repairer} {dorepair : Bool} (h : s.updateVerificationResults.result dorepair = .eSuccess)
    (hall : s.sourcefiles.length ≤ s.mainpacket.recoverablefilecount) :
    ∀ file ∈ s.sourcefiles, Repairer.status file = .complete := by
  unfold Repairer.result at h
  split at h
  · cases h
  · split at h
    · split at h <;> cases h
    · next hcount =>
      have hle : s.sourcefiles.length ≤ s.sourcefiles.countP (Repairer.status · = .complete) :=
        hall.trans (Nat.le_of_not_lt hcount)
      have hevery := List.countP_eq_length.mp (Nat.le_antisymm List.countP_le_length hle)
      exact fun file hfile => of_decide_eq_true (hevery file hfile)

theorem status_eq_complete {file : Option SourceFile} (h : Repairer.status file = .complete) :
    ∃ f d, file = some f ∧ f.completefile = some d ∧ f.targetfile = some d := by
  unfold Repairer.status at h
  split at h
  · cases h
  · next f =>
    split at h
    · next hsome =>
      obtain ⟨d, hd⟩ := Option.isSome_iff_exists.mp hsome
      split at h
      · next htarget => exact ⟨f, d, rfl, hd, htarget.symm.trans hd⟩
      · cases h
    · split at h <;> cases h

theorem mem_sortedFiles {s : Repairer} {f : Nat × SourceFile} (h : f ∈ s.sortedFiles) : s.file? f.1 = some f.2 :=
  Repairer.mem_present.mp ((List.mergeSort_perm _ _).mem_iff.mp h)

theorem length_prepare : (prepare packets mainpacket searchpath loaded).sourcefiles.length = mainpacket.fileids.length := by
  unfold prepare Repairer.prepareVerificationHashTable Repairer.allocateSourceBlocks
  dsimp only
  split
  · rw [List.length_mapIdx, List.length_map]
  · rw [List.length_map]

theorem length_of_plan {s t : Repairer} (h : t.plan = s.plan) : t.sourcefiles.length = s.sourcefiles.length := by
  have hlength := congrArg (fun s => s.sourcefiles.length) h
  unfold Repairer.plan at hlength
  simpa only [List.length_map] using hlength

/-- A source file is the one that was made for its file id. -/
theorem created_of_plan {t : Repairer} (hplan : t.plan = (prepare packets mainpacket searchpath loaded).plan) {i : Nat}
    {file : SourceFile} (h : t.file? i = some file) : ∃ fileid file', mainpacket.fileids[i]? = some fileid ∧
      createSourceFile packets mainpacket.blocksize searchpath fileid = some file' ∧
      file.descriptionpacket = file'.descriptionpacket ∧ file.verificationpacket = file'.verificationpacket ∧
      file.targetfilename = file'.targetfilename := by
  have hsame : ((prepare packets mainpacket searchpath loaded).file? i).map SourceFile.plan = some file.plan := by
    rw [← Repairer.file?_plan, ← hplan, Repairer.file?_plan, h]
    rfl
  obtain ⟨made, hmade, hp⟩ := Option.map_eq_some_iff.mp hsame
  obtain ⟨fileid, file', hfileid, hcreated, hfile'⟩ := file?_prepare hmade
  have hdescription := congrArg SourceFile.descriptionpacket hp
  have hverification := congrArg SourceFile.verificationpacket hp
  have hname := congrArg SourceFile.targetfilename hp
  rcases hfile' with ⟨-, rfl⟩ | rfl
  · exact ⟨fileid, made, hfileid, hcreated, hdescription.symm, hverification.symm, hname.symm⟩
  · exact ⟨fileid, file', hfileid, hcreated, hdescription.symm, hverification.symm, hname.symm⟩

/-- Where a run ends, and how it comes to its result. -/
theorem process_cases {o : Outside} {filenames : List Text} {extrafilenamemap : List (Text × Text)} {dorepair :
    Bool} {s : Repairer}
    {result : Result} (hmain : packets.mainpacket = some mainpacket)
    (h : process o packets searchpath loaded filenames extrafilenamemap dorepair = (some s, result)) :
    Repairer.Running o (prepare packets mainpacket searchpath loaded) s ∧
      (result ≠ .eFileIOError → ∃ t : Repairer, s = t.updateVerificationResults ∧ s.result dorepair = result) := by
  unfold process at h
  rw [hmain] at h
  dsimp only at h
  have hverified : Repairer.Running o (prepare packets mainpacket searchpath loaded)
      ((prepare packets mainpacket searchpath loaded).verifySourceFiles o).1 := by
    unfold Repairer.verifySourceFiles
    split
    · exact ⟨rfl, sound_prepare o⟩
    · exact Repairer.Running.verifySorted tableSound_prepare unverifiable_prepare _ (fun f hf => mem_sortedFiles hf) true
        ⟨rfl, sound_prepare o⟩
  rcases hfiles : (prepare packets mainpacket searchpath loaded).verifySourceFiles o with ⟨t, _ | _⟩ <;>
    rw [hfiles] at h hverified
  · cases h
    exact ⟨hverified, nofun⟩
  · dsimp only at h hverified
    split at h
    · cases h
      exact ⟨(hverified.verifyExtraFiles tableSound_prepare unverifiable_prepare _ _ _).updated,
        fun _ => ⟨_, rfl, rfl⟩⟩
    · cases h
      exact ⟨hverified.updated, fun _ => ⟨_, rfl, rfl⟩⟩

end

/-- However a verification ends, each block that is located and each file that is taken for complete is in a file on disk: the
    block by data of its checksum and hash, the file by its size and hashes. If all files of the set are recoverable, success
    means that each has its target on disk, with the size and the hashes that are described. The hash of a whole file counts where
    files are scanned, which is where a file of the set has a verification packet. -/
theorem verification_sound {o : Outside} {packets : Packets} {mainpacket : MainPacket} {searchpath : Text}
    {loaded filenames : List Text} {extrafilenamemap : List (Text × Text)} {dorepair : Bool} {s : Repairer} {result : Result}
    (hmain : packets.mainpacket = some mainpacket)
    (h : process o packets searchpath loaded filenames extrafilenamemap dorepair = (some s, result)) :
    s.Sound o ∧
    (s.blockverifiable = true ↔ ∃ fileid ∈ mainpacket.fileids, ∃ file,
      createSourceFile packets mainpacket.blocksize searchpath fileid = some file ∧ file.verificationpacket.isSome = true) ∧
    (result = .eSuccess → mainpacket.fileids.length ≤ mainpacket.recoverablefilecount → ∀ fileid ∈ mainpacket.fileids,
      ∃ file diskfile, createSourceFile packets mainpacket.blocksize searchpath fileid = some file ∧
        o.disk file.targetfilename = some diskfile ∧ file.descriptionpacket.Intact s.blockverifiable diskfile.contents) := by
  obtain ⟨⟨hplan, hsound⟩, hresult⟩ := process_cases hmain h
  have hverifiable := Repairer.blockverifiable_of_plan hplan
  refine ⟨hsound, hverifiable ▸ blockverifiable_prepare, fun hsuccess hrecoverable fileid hfileid => ?_⟩
  obtain ⟨t, rfl, hsuccess⟩ : ∃ t : Repairer, s = t.updateVerificationResults ∧ s.result dorepair = .eSuccess := by
    subst hsuccess
    exact hresult nofun
  have hlength : t.updateVerificationResults.sourcefiles.length = mainpacket.fileids.length :=
    (length_of_plan hplan).trans length_prepare
  have hmainpacket : t.updateVerificationResults.mainpacket = mainpacket := by
    have hmainpacket := congrArg Repairer.mainpacket hplan
    exact hmainpacket.trans mainpacket_prepare
  have hcomplete := all_complete_of_eSuccess hsuccess (by
    have hle := hlength.le.trans hrecoverable
    rwa [← hmainpacket] at hle)
  obtain ⟨i, hi⟩ := List.mem_iff_getElem?.mp hfileid
  have hlt : i < t.updateVerificationResults.sourcefiles.length := hlength ▸ (List.getElem?_eq_some_iff.mp hi).1
  obtain ⟨file, d, hfile, hd, htarget⟩ := status_eq_complete (hcomplete _ (List.getElem_mem hlt))
  have hat : t.updateVerificationResults.file? i = some file := by
    unfold Repairer.file?
    rw [List.getElem?_eq_getElem hlt, hfile]
    rfl
  obtain ⟨contents, ⟨filename, diskfile, hname, hdisk, rfl⟩, hintact⟩ := (hsound i file hat).complete d hd
  have htargetname := (hsound i file hat).target d htarget
  obtain ⟨fileid', file', hfileid', hcreated, hdescription, -, hsame⟩ := created_of_plan hplan hat
  obtain rfl := Option.some.inj (hi.symm.trans hfileid')
  obtain rfl := Option.some.inj (hname.symm.trans htargetname)
  exact ⟨file', diskfile, hcreated, hsame ▸ hdisk, hdescription ▸ hintact⟩

def sampleContents : List UInt8 := [1, 2, 3, 4, 5, 6, 7, 8, 9]

/-- The entries of the sample in blocks of four. -/
def sampleEntries : List VerificationEntry :=
  [⟨md5Of [1, 2, 3, 4], crcOf [1, 2, 3, 4]⟩, ⟨md5Of [5, 6, 7, 8], crcOf [5, 6, 7, 8]⟩, ⟨md5Of [9, 0, 0, 0], crcOf [9, 0, 0, 0]⟩]

theorem sampleEntries_pos : 0 < sampleEntries.length := Nat.succ_pos _

theorem sampleEntries_le : sampleEntries.length ≤ 32768 := Nat.le_of_ble_eq_true rfl

theorem sampleIds_le : [([1] : List UInt8)].length ≤ 32768 := Nat.le_of_ble_eq_true rfl

def sampleMain : MainPacket := ⟨4, [[1]], 1, Nat.succ_pos 3, sampleIds_le, Nat.le_refl 1⟩

def samplePackets : Packets where
  mainpacket := some sampleMain
  sourcefilemap := [([1], some ⟨['a'], 9, md5Of sampleContents, md5Of sampleContents⟩,
    some ⟨sampleEntries, sampleEntries_pos, sampleEntries_le⟩)]
  recoverypacketmap := []

def sampleOutside : Outside where
  disk filename := if filename = ['a'] then some { object := 0, contents := sampleContents } else none

theorem verification_sound_sample : ∃ s, process sampleOutside samplePackets [] [] [] [] false = (some s, .eSuccess) ∧
    s.Sound sampleOutside ∧ ∃ file diskfile, createSourceFile samplePackets 4 [] [1] = some file ∧
      sampleOutside.disk file.targetfilename = some diskfile ∧ file.descriptionpacket.Intact true diskfile.contents := by
  have hsuccess : (process sampleOutside samplePackets [] [] [] [] false).2 = .eSuccess := by decide +kernel
  have hsome : (process sampleOutside samplePackets [] [] [] [] false).1.isSome = true := by decide +kernel
  obtain ⟨s, hs⟩ := Option.isSome_iff_exists.mp hsome
  have hrun : process sampleOutside samplePackets [] [] [] [] false = (some s, .eSuccess) := Prod.ext hs hsuccess
  obtain ⟨hsound, hverifiable, hfiles⟩ := @verification_sound _ _ sampleMain _ _ _ _ _ _ _ rfl hrun
  obtain ⟨file, diskfile, hcreated, hdisk, hintact⟩ := hfiles rfl (Nat.le_refl 1) [1] List.mem_cons_self
  rw [hverifiable.mpr ⟨[1], List.mem_cons_self, _, rfl, rfl⟩] at hintact
  exact ⟨s, hrun, hsound, file, diskfile, hcreated, hdisk, hintact⟩

end Nget.Par2

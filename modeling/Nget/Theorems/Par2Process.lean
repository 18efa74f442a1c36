import Nget.Theorems.IntactSet
import Nget.Theorems.LoadedPackets

/-! A whole run of `Process`, from the bytes of the par2 files to its result: a set whose packets are found in them, and whose files
    are on disk as it describes them, verifies. -/

namespace Nget.Par2

deriving instance DecidableEq for DescriptionPacket, VerificationEntry, VerificationPacket, MainPacket, Packet

/-- The file that a description packet and a verification packet stand for. -/
def describedFile (searchpath : Text) (descriptionpacket : DescriptionPacket) (verificationpacket : VerificationPacket) :
    SourceFile :=
  SourceFile.computeTargetFileName searchpath { descriptionpacket, verificationpacket := some verificationpacket }

/-- The packets of a set do not contradict each other, and the files that they describe are on disk, beside its par2 files. -/
structure IntactPackets (o : Outside) (packets : List Packet) (mainpacket : MainPacket) (searchpath : Text)
    (par2files : List Text) : Prop where
  main : .main mainpacket ∈ packets
  one : ∀ p ∈ packets, ∀ q ∈ packets, p.key = q.key → p = q
  recoverable : mainpacket.recoverablefilecount = mainpacket.fileids.length
  files : ∀ fileid ∈ mainpacket.fileids, ∃ descriptionpacket verificationpacket diskfile,
    .description fileid descriptionpacket ∈ packets ∧ .verification fileid verificationpacket ∈ packets ∧
    consistent mainpacket.blocksize (some descriptionpacket, some verificationpacket) = true ∧
    o.disk (describedFile searchpath descriptionpacket verificationpacket).targetfilename = some diskfile ∧
    (∀ offset length, diskfile.readable offset length = true) ∧
    (describedFile searchpath descriptionpacket verificationpacket).Describes mainpacket.blocksize diskfile.contents ∧
    (describedFile searchpath descriptionpacket verificationpacket).targetfilename ∉ par2files
  distinct : mainpacket.fileids.Pairwise fun a b => ∀ d v e w, .description a d ∈ packets → .verification a v ∈ packets →
    .description b e ∈ packets → .verification b w ∈ packets →
    (describedFile searchpath d v).targetfilename ≠ (describedFile searchpath e w).targetfilename

/-- What is held for a key is the packet with it, where there is one only. -/
theorem Summary.held_of_mem {offered : List (List UInt8 × Option Packet)} {s : Loader} (h : Summary offered s)
    (hone : ∀ p ∈ ofSet s.setid offered, ∀ q ∈ ofSet s.setid offered, p.key = q.key → p = q) {packet : Packet}
    (hpacket : packet ∈ ofSet s.setid offered) : s.held packet.key = some packet := by
  rw [h.held]
  cases hfind : (ofSet s.setid offered).find? fun other => other.key = packet.key with
  | none => exact absurd (decide_eq_true rfl) (List.find?_eq_none.mp hfind packet hpacket)
  | some other =>
    have hkey := List.find?_some hfind
    rw [hone other (List.mem_of_find?_eq_some hfind) packet hpacket (of_decide_eq_true hkey)]

section
variable {s : Loader} {fileid : List UInt8} {descriptionpacket : DescriptionPacket} {verificationpacket : VerificationPacket}

theorem sourceFile_of_held (hdescription : s.held (.description fileid) = some (.description fileid descriptionpacket))
    (hverification : s.held (.verification fileid) = some (.verification fileid verificationpacket)) :
    s.sourceFile fileid = (some descriptionpacket, some verificationpacket) := by
  obtain ⟨d, hd, hdeq⟩ := Option.map_eq_some_iff.mp hdescription
  obtain ⟨v, hv, hveq⟩ := Option.map_eq_some_iff.mp hverification
  cases hdeq
  cases hveq
  exact Prod.ext hd hv

theorem createSourceFile_of_sourceFile {blocksize : Nat} {searchpath : Text}
    (hsource : s.sourceFile fileid = (some descriptionpacket, some verificationpacket))
    (hconsistent : consistent blocksize (some descriptionpacket, some verificationpacket) = true) :
    createSourceFile s.packets blocksize searchpath fileid =
      some (describedFile searchpath descriptionpacket verificationpacket) := by
  unfold Loader.sourceFile at hsource
  cases hfind : s.sourcefilemap.find? fun entry => decide (entry.1 = fileid) with
  | none =>
    rw [hfind] at hsource
    cases hsource
  | some entry =>
    obtain ⟨k, found⟩ := entry
    rw [hfind] at hsource
    obtain rfl : found = (some descriptionpacket, some verificationpacket) := hsource
    unfold createSourceFile
    have hpackets : (s.packets.sourcefilemap.find? fun entry => decide (entry.1 = fileid)) =
        some (k, some descriptionpacket, some verificationpacket) := hfind
    rw [hpackets]
    exact if_pos hconsistent

end

/-- The set that was loaded is intact. -/
theorem IntactPackets.intactSet {o : Outside} {offered : List (List UInt8 × Option Packet)} {s : Loader} {mainpacket : MainPacket}
    {searchpath : Text} {par2files : List Text} (hsummary : Summary offered s)
    (h : IntactPackets o (ofSet s.setid offered) mainpacket searchpath par2files)
    (hmap : ∀ filename ∈ s.diskFileMap, filename ∈ par2files) :
    IntactSet o s.packets mainpacket searchpath s.diskFileMap := by
  have hcreated : ∀ fileid ∈ mainpacket.fileids, ∃ d v, .description fileid d ∈ ofSet s.setid offered ∧
      .verification fileid v ∈ ofSet s.setid offered ∧
      createSourceFile s.packets mainpacket.blocksize searchpath fileid = some (describedFile searchpath d v) := by
    intro fileid hfileid
    obtain ⟨d, v, -, hd, hv, hconsistent, -⟩ := h.files fileid hfileid
    exact ⟨d, v, hd, hv, createSourceFile_of_sourceFile
      (sourceFile_of_held (hsummary.held_of_mem h.one hd) (hsummary.held_of_mem h.one hv)) hconsistent⟩
  refine ⟨?_, h.recoverable, fun fileid hfileid => ?_, ?_⟩
  · obtain ⟨packet, hpacket, heq⟩ := Option.map_eq_some_iff.mp (hsummary.held_of_mem h.one h.main)
    cases heq
    exact hpacket
  · obtain ⟨d, v, diskfile, hd, hv, hconsistent, hdisk, hreadable, hdescribes, hother⟩ := h.files fileid hfileid
    refine ⟨describedFile searchpath d v, diskfile, ?_, hdisk, hreadable, hdescribes, fun hin => hother (hmap _ hin)⟩
    exact createSourceFile_of_sourceFile
      (sourceFile_of_held (hsummary.held_of_mem h.one hd) (hsummary.held_of_mem h.one hv)) hconsistent
  · refine h.distinct.imp_of_mem fun ha hb hdistinct f g hf hg => ?_
    obtain ⟨d, v, hd, hv, hcreateda⟩ := hcreated _ ha
    obtain ⟨e, w, he, hw, hcreatedb⟩ := hcreated _ hb
    obtain rfl := Option.some.inj (hcreateda.symm.trans hf)
    obtain rfl := Option.some.inj (hcreatedb.symm.trans hg)
    exact hdistinct d v e w hd hv he hw

theorem par2_files_verify {o : Outside} {turns : Nat} {readdir : Text → List Text} {par2filename : Text} {filenames : List Text}
    {setid : List UInt8} {mainpacket : MainPacket}
    (hload : ∀ filename ∈ par2Files o readdir par2filename filenames, ∀ diskfile, o.disk filename = some diskfile →
      Loadable diskfile ∧ diskfile.fileSize < turns)
    (hset : (offeredBy o (par2Files o readdir par2filename filenames)).head?.map (·.1) = some setid)
    (h : IntactPackets o (ofSet (some setid) (offeredBy o (par2Files o readdir par2filename filenames))) mainpacket
      (splitFilename par2filename).1 (par2Files o readdir par2filename filenames))
    (extrafilenamemap : List (Text × Text)) (dorepair : Bool) :
    ∃ repairer, processFiles o turns readdir par2filename filenames extrafilenamemap dorepair =
      some (repairer, .eSuccess) := by
  obtain ⟨s, hs, hsummary, hmap⟩ := @loadFiles_summary _ _ (par2Files o readdir par2filename filenames) [] _
    Summary.initial (fun _ h => h) hload
  rw [List.nil_append] at hsummary hmap
  rw [← hsummary.setid.trans hset] at h
  have hresult := (h.intactSet hsummary hmap).eSuccess filenames extrafilenamemap dorepair
  unfold processFiles
  rw [hs, Option.map_some]
  exact ⟨_, congrArg some (Prod.ext rfl hresult)⟩

/-! ### A set -/

def sampleHeader (length : UInt8) (type : List UInt8) : List UInt8 :=
  packetMagic ++ (length :: List.replicate 39 0) ++ type

def sampleFileid : List UInt8 := List.replicate 16 1

def sampleDescription : DescriptionPacket := ⟨['a'], 9, md5Of sampleContents, md5Of sampleContents⟩

def sampleVerification : VerificationPacket := ⟨sampleEntries, sampleEntries_pos, sampleEntries_le⟩

theorem sampleFileids_le : [sampleFileid].length ≤ 32768 := Nat.le_of_ble_eq_true rfl

theorem sampleBlocksize_pos : 0 < 4 := Nat.succ_pos 3

theorem sampleCount_le : 1 ≤ [sampleFileid].length := Nat.le_refl 1

def sampleSetMain : MainPacket := ⟨4, [sampleFileid], 1, sampleBlocksize_pos, sampleFileids_le, sampleCount_le⟩

/-- The packets of a set with one file, in blocks of four. -/
def sampleSetFile : List UInt8 :=
  finishPacket sampleSetid (sampleHeader 140 fileverificationpacketType ++ sampleFileid ++
      sampleEntries.flatMap fun entry => entry.hash ++ wordBytes entry.crc) ++
    finishPacket sampleSetid (sampleHeader 92 mainpacketType ++ [4, 0, 0, 0, 0, 0, 0, 0, 1, 0, 0, 0] ++ sampleFileid) ++
    finishPacket sampleSetid (sampleHeader 124 filedescriptionpacketType ++ sampleFileid ++ md5Of sampleContents ++
      md5Of sampleContents ++ [9, 0, 0, 0, 0, 0, 0, 0, 0x61, 0, 0, 0])

def sampleSet : Outside where
  disk filename :=
    if filename = ['/', 'p'] then some { object := 0, contents := sampleSetFile }
    else if filename = ['/', 'a'] then some { object := 0, contents := sampleContents }
    else none

theorem sampleSet_files : par2Files sampleSet (fun _ => []) ['/', 'p'] [] = [['/', 'p']] := by decide +kernel

theorem sampleSet_packets : ofSet (some sampleSetid) (offeredBy sampleSet [['/', 'p']]) =
    [.verification sampleFileid sampleVerification, .main sampleSetMain, .description sampleFileid sampleDescription] := by
  decide +kernel

theorem sampleSet_intact : IntactPackets sampleSet (ofSet (some sampleSetid) (offeredBy sampleSet [['/', 'p']])) sampleSetMain
    ['/'] [['/', 'p']] := by
  rw [sampleSet_packets]
  have hname : (describedFile ['/'] sampleDescription sampleVerification).targetfilename = ['/', 'a'] := by decide +kernel
  refine ⟨by decide +kernel, by decide +kernel, rfl, fun fileid hfileid => ?_, List.pairwise_singleton _ _⟩
  obtain rfl := List.mem_singleton.mp hfileid
  refine ⟨sampleDescription, sampleVerification, { object := 0, contents := sampleContents }, by decide +kernel,
    by decide +kernel, by decide +kernel, ?_, fun _ _ => rfl, sample_describes rfl rfl, ?_⟩
  · rw [hname]
    rfl
  · rw [hname]
    decide +kernel

theorem par2_files_verify_sample :
    ∃ repairer, processFiles sampleSet 357 (fun _ => []) ['/', 'p'] [] [] false = some (repairer, .eSuccess) := by
  have hload : ∀ filename ∈ par2Files sampleSet (fun _ => []) ['/', 'p'] [], ∀ diskfile,
      sampleSet.disk filename = some diskfile → Loadable diskfile ∧ diskfile.fileSize < 357 := by
    intro filename hfilename diskfile hdisk
    rw [sampleSet_files] at hfilename
    obtain rfl := List.mem_singleton.mp hfilename
    have hfile : sampleSet.disk ['/', 'p'] = some { object := 0, contents := sampleSetFile } := rfl
    obtain rfl := Option.some.inj (hfile.symm.trans hdisk)
    exact ⟨⟨⟨by decide +kernel, fun _ _ _ => rfl⟩, not_forged (by decide +kernel)⟩, by decide +kernel⟩
  have hset : (offeredBy sampleSet (par2Files sampleSet (fun _ => []) ['/', 'p'] [])).head?.map (·.1) = some sampleSetid := by
    rw [sampleSet_files]
    decide +kernel
  have hintact : IntactPackets sampleSet
      (ofSet (some sampleSetid) (offeredBy sampleSet (par2Files sampleSet (fun _ => []) ['/', 'p'] []))) sampleSetMain
      (splitFilename ['/', 'p']).1 (par2Files sampleSet (fun _ => []) ['/', 'p'] []) := by
    rw [sampleSet_files]
    exact sampleSet_intact
  exact par2_files_verify hload hset hintact [] false

end Nget.Par2

import Nget.Theorems.FileCheckSummer
import Nget.Theorems.VerificationTable

/-! What a scan finds is there: a block is located only where data of its checksum and hash was seen, and a file is taken for
    complete only when its size and hashes are those that are described. -/

namespace Nget

namespace FileCheckSummer

/-! ### The window moves on -/

theorem updateHashes_currentoffset (offset : Nat) (data : List UInt8) (s : FileCheckSummer) :
    (s.updateHashes offset data).currentoffset = s.currentoffset := by
  rw [updateHashes_eq]

theorem fill_currentoffset {s t : FileCheckSummer} (h : s.fill = some t) : t.currentoffset = s.currentoffset := by
  unfold fill at h
  split at h
  · cases h; rfl
  · dsimp only at h
    split at h
    · split at h
      · cases h
      · cases h; exact updateHashes_currentoffset _ _ _
    · cases h; rfl

theorem step_currentoffset {s t : FileCheckSummer} (h : s.step = some t) :
    t.currentoffset = min (s.currentoffset + 1) s.filesize := by
  unfold step at h
  split at h
  · cases h
  · split at h
    · next hend =>
      cases h
      exact (Nat.min_eq_right hend).symm
    · next hin =>
      rw [Nat.min_eq_left (Nat.le_of_not_le hin)]
      dsimp only at h
      split at h
      · cases h; rfl
      · exact fill_currentoffset h

theorem jump_currentoffset {s t : FileCheckSummer} {distance : Nat} (h : s.jump distance = some t) (hle :
    distance ≤ s.blocksize) :
    0 < distance ∧ t.currentoffset = min (s.currentoffset + distance) s.filesize := by
  unfold jump at h
  split at h
  · cases h
  · split at h
    · cases h
    · next hzero =>
      refine ⟨Nat.pos_of_ne_zero hzero, ?_⟩
      split at h
      · next hone => rw [hone]; exact step_currentoffset h
      · dsimp only at h
        rw [Nat.min_eq_left hle] at h
        split at h
        · next hend =>
          cases h
          exact (Nat.min_eq_right hend).symm
        · next hin =>
          rw [Nat.min_eq_left (Nat.le_of_not_le hin)]
          obtain ⟨u, hfill, hu⟩ := Option.bind_eq_some_iff.mp h
          cases hu
          exact fill_currentoffset hfill

/-! ### The data in the window -/

theorem Tracks.length_window {s : FileCheckSummer} (h : Tracks s) {length : Nat} (hle : length ≤ s.blocksize) :
    (s.window length).length = length := by
  have hsize := h.buffered.size
  have hout := h.out_lt
  unfold window
  rw [List.length_take, List.length_drop]
  omega

/-- The data of the file is where the window begins, as far as the file goes. -/
theorem Tracks.data_prefix {s : FileCheckSummer} (h : Tracks s) {length : Nat} (hle : length ≤ s.blocksize) :
    (s.diskfile.contents.drop s.currentoffset).take length <+: s.window length := by
  have hrest : length ⊓ (s.diskfile.contents.drop s.currentoffset).length ≤ s.blockLength := by
    rw [List.length_drop]
    exact min_le_min_right _ hle
  rw [List.take_eq_take_min, ← h.window_take hrest]
  exact List.take_prefix_take_left (Nat.min_le_left _ _)

end FileCheckSummer

namespace Par2

/-! ### What verification does not change -/

def SourceFile.plan (file : SourceFile) : SourceFile :=
  { file with
    sourceblocks := file.sourceblocks.map fun datablock => { length := datablock.length }
    targetexists := false
    targetfile := none
    completefile := none }

namespace Repairer

def plan (s : Repairer) : Repairer :=
  { s with
    sourcefiles := s.sourcefiles.map (·.map SourceFile.plan)
    diskFileMap := []
    availableblockcount := 0
    missingblockcount := 0
    completefilecount := 0
    renamedfilecount := 0
    damagedfilecount := 0
    missingfilecount := 0 }

theorem file?_plan (s : Repairer) (i : Nat) : s.plan.file? i = (s.file? i).map SourceFile.plan := by
  unfold file? plan
  rw [List.getElem?_map]
  rcases s.sourcefiles[i]? with _ | _ | file <;> rfl

theorem file?_modifyFile (s : Repairer) (i j : Nat) (f : SourceFile → SourceFile) :
    (s.modifyFile i f).file? j = (s.file? j).map (if i = j then f else id) := by
  unfold file? modifyFile
  rw [List.getElem?_modify]
  rcases s.sourcefiles[j]? with _ | _ | file
  · rfl
  · split <;> rfl
  · split <;> rfl

theorem table_of_plan {s t : Repairer} (h : t.plan = s.plan) : t.verificationhashtable = s.verificationhashtable := by
  have htable := congrArg verificationhashtable h
  exact htable

theorem blocksize_of_plan {s t : Repairer} (h : t.plan = s.plan) : t.blocksize = s.blocksize := by
  have hblocksize := congrArg blocksize h
  exact hblocksize

theorem blockverifiable_of_plan {s t : Repairer} (h : t.plan = s.plan) : t.blockverifiable = s.blockverifiable := by
  have hverifiable := congrArg blockverifiable h
  exact hverifiable

theorem plan_modifyFile (s : Repairer) (i : Nat) {f : SourceFile → SourceFile}
    (hf : ∀ file, s.file? i = some file → (f file).plan = file.plan) : (s.modifyFile i f).plan = s.plan := by
  unfold plan modifyFile
  dsimp only
  congr 1
  refine List.ext_getElem? fun j => ?_
  rw [List.getElem?_map, List.getElem?_map, List.getElem?_modify]
  rcases hj : s.sourcefiles[j]? with _ | _ | file
  · rfl
  · split <;> rfl
  · split
    · next hsame =>
      subst hsame
      have hfile : s.file? i = some file := by
        unfold file?
        rw [hj]
        rfl
      exact congrArg (fun file => some (some file)) (hf file hfile)
    · rfl

theorem plan_setBlock (s : Repairer) (diskfile offset : Nat) (entry : VerificationHashEntry) :
    (s.setBlock diskfile offset entry).plan = s.plan := by
  refine plan_modifyFile s _ fun file _ => ?_
  unfold SourceFile.plan
  dsimp only
  congr 1
  refine List.ext_getElem? fun n => ?_
  rw [List.getElem?_map, List.getElem?_map, List.getElem?_modify]
  rcases file.sourceblocks[n]? with _ | datablock
  · rfl
  · split <;> rfl

/-! ### Entries -/

theorem getElem?_entries {i n : Nat} {file : SourceFile} {e : VerificationHashEntry} : (entries i file)[n]? = some e ↔
    ∃ packet entry, file.verificationpacket = some packet ∧ packet.entries[n]? = some entry ∧
      e = ⟨i, n, entry.crc, entry.hash⟩ := by
  unfold entries
  rcases file.verificationpacket with _ | packet
  · exact ⟨nofun, fun ⟨_, _, h, _⟩ => nomatch h⟩
  · rw [List.getElem?_mapIdx, Option.map_eq_some_iff]
    exact ⟨fun ⟨entry, hentry, he⟩ => ⟨packet, entry, rfl, hentry, he.symm⟩,
      fun ⟨_, entry, hpacket, hentry, he⟩ => ⟨entry, Option.some.inj hpacket ▸ hentry, he.symm⟩⟩

/-- The entry was made for a block of a source file. -/
def IsEntry (s : Repairer) (e : VerificationHashEntry) : Prop :=
  ∃ file packet entry, s.file? e.sourcefile = some file ∧ file.verificationpacket = some packet ∧
    packet.entries[e.blocknumber]? = some entry ∧ e.crc = entry.crc ∧ e.hash = entry.hash

section
variable {s t : Repairer} {e : VerificationHashEntry}

theorem IsEntry.of_plan (h : s.IsEntry e) (hplan : t.plan = s.plan) : t.IsEntry e := by
  obtain ⟨file, packet, entry, hfile, hpacket, hentry⟩ := h
  have hsame : (t.file? e.sourcefile).map SourceFile.plan = some file.plan := by
    rw [← file?_plan, hplan, file?_plan, hfile]
    rfl
  obtain ⟨file', hfile', hp⟩ := Option.map_eq_some_iff.mp hsame
  exact ⟨file', packet, entry, hfile', (congrArg SourceFile.verificationpacket hp).trans hpacket, hentry⟩

theorem isEntry_of_next {e' : VerificationHashEntry} (h : s.next e = some e') : s.IsEntry e' := by
  obtain ⟨file, hfile, hnext⟩ := Option.bind_eq_some_iff.mp h
  obtain ⟨packet, entry, hpacket, hentry, rfl⟩ := getElem?_entries.mp hnext
  exact ⟨file, packet, entry, hfile, hpacket, hentry, rfl, rfl⟩

theorem mem_present {i : Nat} {file : SourceFile} : (i, file) ∈ s.present ↔ s.file? i = some file := by
  unfold present file?
  rw [List.mem_filterMap]
  refine ⟨fun ⟨x, hx, hfile⟩ => ?_, fun h => ?_⟩
  · obtain ⟨y, hy, heq⟩ := Option.map_eq_some_iff.mp hfile
    cases heq
    rw [List.mem_zipIdx_iff_getElem?] at hx
    rw [hx, hy]
    rfl
  · refine ⟨(some file, i), List.mem_zipIdx_iff_getElem?.mpr ?_, rfl⟩
    exact Option.join_eq_some_iff.mp h

theorem isEntry_of_mem (h : e ∈ s.allEntries) : s.IsEntry e := by
  obtain ⟨⟨i, file⟩, hfile, he⟩ := List.mem_flatMap.mp h
  obtain ⟨n, hn⟩ := List.mem_iff_getElem?.mp he
  obtain ⟨packet, entry, hpacket, hentry, rfl⟩ := getElem?_entries.mp hn
  exact ⟨file, packet, entry, mem_present.mp hfile, hpacket, hentry, rfl, rfl⟩

/-! ### A match is sound -/

/-- Data with the checksum and the hash of the entry, which begins as the file does at the offset, as far as the block goes. -/
def Seen (blocksize length : Nat) (crc : UInt32) (hash contents : List UInt8) (offset : Nat) : Prop :=
  ∃ w, w.length = blocksize ∧ crcOf w = crc ∧ md5Of w = hash ∧ (contents.drop offset).take length <+: w

/-- The table gives entries of the set only. -/
def TableSound (s : Repairer) : Prop :=
  ∀ crc hash, ∀ e ∈ s.verificationhashtable.lookup crc hash, e.Has crc hash ∧ s.IsEntry e

theorem TableSound.of_plan (h : s.TableSound) (hplan : t.plan = s.plan) : t.TableSound := by
  intro crc hash e he
  rw [table_of_plan hplan] at he
  exact ⟨(h crc hash e he).1, (h crc hash e he).2.of_plan hplan⟩

variable {c : FileCheckSummer} {suggestedentry : Option VerificationHashEntry} {sourcefile : Option Nat} {duplicate : Bool}

theorem oneMatch_eq {entry : VerificationHashEntry} (h : s.oneMatch c suggestedentry entry = (some e, duplicate)) :
    e = entry := by
  unfold oneMatch at h
  split_ifs at h <;> cases h <;> rfl

theorem manyMatches_mem {entries : List VerificationHashEntry} (h : s.manyMatches c sourcefile entries = (some e, duplicate)) :
    e ∈ entries := by
  unfold manyMatches at h
  split at h
  · next hfind =>
    cases h
    exact List.mem_of_find?_eq_some hfind
  · exact List.mem_of_find?_eq_some (congrArg Prod.fst h)

theorem findMatch_cases (h : s.findMatch c suggestedentry sourcefile = (some e, duplicate)) :
    (suggestedentry = some e ∧ s.suggestedMatches c e = true) ∨ e ∈ s.verificationhashtable.lookup c.checksum c.hash := by
  unfold findMatch at h
  split at h
  · next entry hsuggested =>
    cases h
    exact .inl (Option.filter_eq_some_iff.mp hsuggested)
  · right
    split at h
    · cases h
    · next entry hlookup =>
      rw [oneMatch_eq h, hlookup]
      exact List.mem_cons_self
    · exact manyMatches_mem h

theorem findMatch_sound (hs : s.TableSound) (hc : c.Tracks) (hle : (s.block e).length ≤ c.blocksize)
    (hsuggested : ∀ e ∈ suggestedentry, s.IsEntry e) (h : s.findMatch c suggestedentry sourcefile = (some e, duplicate)) :
    s.IsEntry e ∧ Seen c.blocksize (s.block e).length e.crc e.hash c.diskfile.contents c.currentoffset := by
  have hwhole : (c.diskfile.contents.drop c.currentoffset).take (s.block e).length <+: c.window c.blocksize :=
    (hc.data_prefix hle).trans (List.take_prefix_take_left hle)
  rcases findMatch_cases h with ⟨hsome, hmatches⟩ | hmem
  · refine ⟨hsuggested e hsome, ?_⟩
    unfold suggestedMatches at hmatches
    split at hmatches
    · -- The last block of a file: the window is cut to its length and filled up with zeros.
      simp only [Bool.and_eq_true, decide_eq_true_eq, FileCheckSummer.shortChecksum_eq,
        FileCheckSummer.shortHash_eq] at hmatches
      refine ⟨_, ?_, hmatches.1, hmatches.2, (hc.data_prefix hle).trans (List.prefix_append _ _)⟩
      rw [List.length_append, hc.length_window hle, List.length_replicate, Nat.add_sub_cancel' hle]
    · simp only [Bool.and_eq_true, decide_eq_true_eq, FileCheckSummer.hash_eq, hc.checksum] at hmatches
      exact ⟨_, hc.length_window (Nat.le_refl _), hmatches.1.2.symm, hmatches.2, hwhole⟩
  · obtain ⟨⟨hcrc, hhash⟩, hentry⟩ := hs _ _ e hmem
    refine ⟨hentry, _, hc.length_window (Nat.le_refl _), ?_, ?_, hwhole⟩
    · rw [hcrc, hc.checksum]
    · rw [hhash, FileCheckSummer.hash_eq]

end
end Repairer

/-! ### What was found is there -/

/-- The object is the file with these contents. -/
def Opened (o : Outside) (names : List Text) (object : Nat) (contents : List UInt8) : Prop :=
  ∃ filename diskfile, names[object]? = some filename ∧ o.disk filename = some diskfile ∧ diskfile.contents = contents

/-- The hashes are those of the contents; the one of the whole file only where it counts, and none of an empty file. -/
def FileHashes.Of (whole : Bool) (contents : List UInt8) (hashes : FileHashes) : Prop :=
  contents ≠ [] → (whole = true → hashes.hashfull = md5Of contents) ∧ hashes.hash16k = md5Of (contents.take 16384)

/-- The contents have the size and the hashes that are described, with the same exceptions. -/
def DescriptionPacket.Intact (whole : Bool) (descriptionpacket : DescriptionPacket) (contents : List UInt8) : Prop :=
  contents.length = descriptionpacket.fileSize ∧
    FileHashes.Of whole contents ⟨descriptionpacket.hashFull, descriptionpacket.hash16k⟩

theorem Intact.of_describes {whole : Bool} {descriptionpacket : DescriptionPacket} {contents : List UInt8} {hashes : FileHashes}
    (h : descriptionpacket.describes contents.length hashes = true) (hhashes : hashes.Of whole contents) :
    descriptionpacket.Intact whole contents := by
  unfold DescriptionPacket.describes at h
  simp only [Bool.and_eq_true, decide_eq_true_eq] at h
  refine ⟨h.1.1, fun hne => ?_⟩
  dsimp only
  rw [← h.1.2, ← h.2]
  exact hhashes hne

namespace SourceFile

/-- The length of a block. -/
def blockLength (blocksize : Nat) (file : SourceFile) (blocknumber : Nat) : Nat :=
  min blocksize (file.descriptionpacket.fileSize - blocknumber * blocksize)

/-- A block of the file is at the offset: by its entry, or as a part of the whole file. -/
structure Found (blocksize : Nat) (whole : Bool) (file : SourceFile) (blocknumber : Nat) (contents : List UInt8) (offset : Nat) :
    Prop where
  entry : ∀ packet, file.verificationpacket = some packet → ∃ entry, packet.entries[blocknumber]? = some entry ∧
    Repairer.Seen blocksize (file.blockLength blocksize blocknumber) entry.crc entry.hash contents offset
  whole : file.verificationpacket = none → file.descriptionpacket.Intact whole contents ∧ offset = blocknumber * blocksize

structure Sound (o : Outside) (names : List Text) (blocksize : Nat) (whole : Bool) (file : SourceFile) : Prop where
  length : ∀ n b, file.sourceblocks[n]? = some b → b.length = file.blockLength blocksize n
  located : ∀ n b d, file.sourceblocks[n]? = some b → b.diskfile = some d →
    ∃ contents, Opened o names d contents ∧ file.Found blocksize whole n contents b.offset
  complete : ∀ d, file.completefile = some d →
    ∃ contents, Opened o names d contents ∧ file.descriptionpacket.Intact whole contents
  target : ∀ d, file.targetfile = some d → names[d]? = some file.targetfilename

theorem Sound.setLocation {o : Outside} {names : List Text} {blocksize n d offset : Nat} {whole : Bool} {file : SourceFile}
    {contents : List UInt8} (h : file.Sound o names blocksize whole) (hopened : Opened o names d contents)
    (hfound : ∀ b, file.sourceblocks[n]? = some b → file.Found blocksize whole n contents offset) :
    ({ file with sourceblocks := file.sourceblocks.modify n (·.setLocation d offset) } :
      SourceFile).Sound o names blocksize whole := by
  have hblock : ∀ m b, (file.sourceblocks.modify n (·.setLocation d offset))[m]? = some b →
    ∃ b', file.sourceblocks[m]? = some b' ∧
      b = if n = m then b'.setLocation d offset else b' := by
    intro m b hb
    rw [List.getElem?_modify] at hb
    obtain ⟨b', hb', rfl⟩ := Option.map_eq_some_iff.mp hb
    exact ⟨b', hb', rfl⟩
  refine ⟨fun m b hb => ?_, fun m b object hb hobject => ?_, h.complete, h.target⟩
  · obtain ⟨b', hb', rfl⟩ := hblock m b hb
    refine Eq.trans ?_ (h.length m b' hb')
    split <;> rfl
  · obtain ⟨b', hb', rfl⟩ := hblock m b hb
    split at hobject
    · next hsame =>
      subst hsame
      cases hobject
      rw [if_pos rfl]
      exact ⟨contents, hopened, ⟨(hfound b' hb').entry, (hfound b' hb').whole⟩⟩
    · next hother =>
      rw [if_neg hother]
      obtain ⟨contents', hopened', hfound'⟩ := h.located m b' object hb' hobject
      exact ⟨contents', hopened', ⟨hfound'.entry, hfound'.whole⟩⟩

end SourceFile

namespace Repairer

def Sound (o : Outside) (s : Repairer) : Prop :=
  ∀ i file, s.file? i = some file → file.Sound o s.diskFileMap s.blocksize s.blockverifiable

section
variable {o : Outside} {s : Repairer}

theorem Sound.modifyFile (h : s.Sound o) {i : Nat} {f : SourceFile → SourceFile}
    (hf : ∀ file, s.file? i = some file → (f file).Sound o s.diskFileMap s.blocksize s.blockverifiable) : (s.modifyFile i f).Sound o := by
  intro j file hfile
  rw [file?_modifyFile] at hfile
  obtain ⟨file', hfile', rfl⟩ := Option.map_eq_some_iff.mp hfile
  split
  · next hsame =>
    subst hsame
    exact hf file' hfile'
  · exact h j file' hfile'

theorem block_eq {e : VerificationHashEntry} {file : SourceFile} {b : DataBlock} (hfile : s.file? e.sourcefile = some file)
    (hb : file.sourceblocks[e.blocknumber]? = some b) : s.block e = b := by
  unfold block
  rw [hfile, Option.bind_some, hb]
  rfl

theorem Sound.block_le (h : s.Sound o) (e : VerificationHashEntry) : (s.block e).length ≤ s.blocksize := by
  unfold block
  cases hb : (s.file? e.sourcefile).bind fun file => file.sourceblocks[e.blocknumber]? with
  | none => exact Nat.zero_le _
  | some b =>
    obtain ⟨file, hfile, hblock⟩ := Option.bind_eq_some_iff.mp hb
    rw [Option.getD_some, (h _ file hfile).length _ b hblock]
    exact Nat.min_le_left _ _

theorem Sound.setBlock (h : s.Sound o) {e : VerificationHashEntry} {d offset : Nat} {contents : List UInt8}
    (hopened : Opened o s.diskFileMap d contents) (hentry : s.IsEntry e)
    (hseen : Seen s.blocksize (s.block e).length e.crc e.hash contents offset) : (s.setBlock d offset e).Sound o := by
  refine h.modifyFile fun file hfile => (h _ file hfile).setLocation hopened fun b hb => ?_
  obtain ⟨file', packet, entry, hfile', hpacket, hat, hcrc, hhash⟩ := hentry
  obtain rfl := Option.some.inj (hfile.symm.trans hfile')
  refine ⟨fun packet' hpacket' => ?_, fun hnone => by rw [hnone] at hpacket; cases hpacket⟩
  obtain rfl := Option.some.inj (hpacket.symm.trans hpacket')
  rw [block_eq hfile hb, (h _ file hfile).length _ b hb, hcrc, hhash] at hseen
  exact ⟨entry, hat, hseen⟩

end
end Repairer

/-! ### A scan -/

namespace Scan

/-- What holds wherever the scan of a file has come to. -/
structure Along (o : Outside) (s : Repairer) (diskfile : DiskFile) (x : Scan) : Prop where
  plan : x.repairer.plan = s.plan
  names : x.repairer.diskFileMap = s.diskFileMap
  sound : x.repairer.Sound o
  same : (FileCheckSummer.new diskfile s.blocksize).SameFile x.checksummer
  follows : x.checksummer.Follows
  next : ∀ e ∈ x.nextentry, x.repairer.IsEntry e

/-- What a scan leaves that fails. -/
structure Left (o : Outside) (s t : Repairer) : Prop where
  plan : t.plan = s.plan
  names : t.diskFileMap = s.diskFileMap
  sound : t.Sound o

section
variable {o : Outside} {s : Repairer} {diskfile : DiskFile} {x y : Scan}

theorem Along.tracks (h : Along o s diskfile x) (hinside : x.checksummer.currentoffset < x.checksummer.filesize) :
    x.checksummer.Tracks := by
  rcases h.follows with htracks | hended
  · exact htracks
  · exact absurd hended.offset (Nat.ne_of_lt hinside)

theorem Along.blocksize (h : Along o s diskfile x) : x.repairer.blocksize = x.checksummer.blocksize := by
  rw [Repairer.blocksize_of_plan h.plan, h.same.blocksize]
  rfl

theorem Along.filesize (h : Along o s diskfile x) : x.checksummer.filesize = diskfile.fileSize :=
  congrArg DiskFile.fileSize h.same.diskfile

theorem Along.record (h : Along o s diskfile x) (htable : s.TableSound)
    (hopened : Opened o s.diskFileMap diskfile.object diskfile.contents)
    (hinside : x.checksummer.currentoffset < x.checksummer.filesize) {e : VerificationHashEntry} {duplicate : Bool}
    (hfound : x.repairer.findMatch x.checksummer x.nextentry x.sourcefile = (some e, duplicate)) :
    Along o s diskfile (x.record e) := by
  have hfile : x.checksummer.diskfile = diskfile := h.same.diskfile
  have hsize := h.blocksize
  obtain ⟨hentry, hseen⟩ := Repairer.findMatch_sound (htable.of_plan h.plan) (h.tracks hinside)
    ((h.sound.block_le e).trans_eq hsize) h.next hfound
  rw [← hsize, hfile] at hseen
  have hnext : ∀ e' ∈ x.repairer.next e, x.repairer.IsEntry e' := fun e' he' => Repairer.isEntry_of_next he'
  unfold Scan.record
  dsimp only
  split
  · have hplan := x.repairer.plan_setBlock x.checksummer.diskfile.object x.checksummer.currentoffset e
    refine ⟨hplan.trans h.plan, h.names, ?_, h.same, h.follows, fun e' he' => (hnext e' he').of_plan hplan⟩
    rw [hfile]
    exact h.sound.setBlock (h.names ▸ hopened) hentry hseen
  · exact ⟨h.plan, h.names, h.sound, h.same, h.follows, hnext⟩

theorem Along.moved (h : Along o s diskfile x) (hinside : x.checksummer.currentoffset < x.checksummer.filesize)
    {checksummer : FileCheckSummer}
    (hmoved : x.checksummer.step = some checksummer ∨ ∃ distance, x.checksummer.jump distance = some checksummer) :
    Along o s diskfile { x with checksummer } := by
  have htracks := h.tracks hinside
  have hnew : x.checksummer.SameFile checksummer ∧ checksummer.Follows := by
    rcases hmoved with hstep | ⟨distance, hjump⟩
    · exact htracks.step hstep
    · exact htracks.jump hjump
  exact ⟨h.plan, h.names, h.sound, h.same.trans hnew.1, hnew.2, h.next⟩

theorem Along.nothing (h : Along o s diskfile x) :
    Along o s diskfile { x with matchtype := .ePartialMatch, nextentry := none } :=
  ⟨h.plan, h.names, h.sound, h.same, h.follows, nofun⟩

theorem Along.advance (h : Along o s diskfile x) (hinside : x.checksummer.currentoffset < x.checksummer.filesize)
    {moved : Option FileCheckSummer}
    (hmoved : moved = x.checksummer.step ∨ ∃ distance, moved = x.checksummer.jump distance) :
    (x.advance moved = .ok y → Along o s diskfile y) ∧ ∀ t, x.advance moved = .error t → Left o s t := by
  cases moved with
  | none =>
    refine ⟨nofun, fun t ht => ?_⟩
    cases ht
    exact ⟨h.plan, h.names, h.sound⟩
  | some checksummer =>
    refine ⟨fun hy => ?_, fun t ht => by cases ht⟩
    cases hy
    exact h.moved hinside (hmoved.imp Eq.symm fun ⟨distance, hjump⟩ => ⟨distance, hjump.symm⟩)

theorem Along.turn (h : Along o s diskfile x) (htable : s.TableSound)
    (hopened : Opened o s.diskFileMap diskfile.object diskfile.contents)
    (hinside : x.checksummer.currentoffset < x.checksummer.filesize) :
    (x.turn = .ok y → Along o s diskfile y) ∧ ∀ t, x.turn = .error t → Left o s t := by
  unfold Scan.turn
  rcases hfound : x.repairer.findMatch x.checksummer x.nextentry x.sourcefile with ⟨_ | e, _ | _⟩
  · exact h.nothing.advance hinside (.inl rfl)
  · exact h.nothing.advance hinside (.inr ⟨_, rfl⟩)
  · exact (h.record htable hopened hinside hfound).advance hinside (.inr ⟨_, rfl⟩)
  · exact (h.record htable hopened hinside hfound).advance hinside (.inr ⟨_, rfl⟩)

theorem Along.loop (htable : s.TableSound) (hopened : Opened o s.diskFileMap diskfile.object diskfile.contents) (turns : Nat) :
    ∀ {x : Scan}, Along o s diskfile x →
      (x.loop turns = .ok y → Along o s diskfile y) ∧ ∀ t, x.loop turns = .error t → Left o s t := by
  induction turns with
  | zero =>
    intro x h
    refine ⟨fun hy => ?_, fun t ht => by cases ht⟩
    cases hy
    exact h
  | succ turns ih =>
    intro x h
    unfold Scan.loop
    split
    · next hinside =>
      have hturn := fun y => h.turn (y := y) htable hopened hinside
      split
      · next t ht => exact ⟨nofun, fun t' ht' => by cases ht'; exact (hturn x).2 t ht⟩
      · next y' hy' => exact ih ((hturn y').1 hy')
    · refine ⟨fun hy => ?_, fun t ht => by cases ht⟩
      cases hy
      exact h

/-! ### The end of a scan -/

theorem advance_ok {moved : Option FileCheckSummer} (h : x.advance moved = .ok y) :
    ∃ checksummer, moved = some checksummer ∧ y = { x with checksummer } := by
  cases moved with
  | none => cases h
  | some checksummer => cases h; exact ⟨checksummer, rfl, rfl⟩

/-- What a turn does that does not fail. -/
theorem turn_cases (h : x.turn = .ok y) :
    (∃ e duplicate checksummer, x.repairer.findMatch x.checksummer x.nextentry x.sourcefile = (some e, duplicate) ∧
      x.checksummer.jump (x.repairer.block e).length = some checksummer ∧ y = { x.record e with checksummer }) ∨
    ∃ checksummer, (x.checksummer.jump x.repairer.blocksize = some checksummer ∨ x.checksummer.step = some checksummer) ∧
      y = { x with checksummer, matchtype := .ePartialMatch, nextentry := none } := by
  unfold turn at h
  rcases hfound : x.repairer.findMatch x.checksummer x.nextentry x.sourcefile with ⟨_ | e, _ | _⟩ <;> rw [hfound] at h <;>
    obtain ⟨checksummer, hmoved, rfl⟩ := advance_ok h
  · exact .inr ⟨checksummer, .inr hmoved, rfl⟩
  · exact .inr ⟨checksummer, .inl hmoved, rfl⟩
  · exact .inl ⟨e, _, checksummer, rfl, hmoved, rfl⟩
  · exact .inl ⟨e, _, checksummer, rfl, hmoved, rfl⟩

theorem Along.turn_advances (h : Along o s diskfile x) (hinside : x.checksummer.currentoffset < x.checksummer.filesize)
    (hturn : x.turn = .ok y) : x.checksummer.currentoffset < y.checksummer.currentoffset := by
  have hjump : ∀ {distance checksummer}, distance ≤ x.checksummer.blocksize → x.checksummer.jump distance = some checksummer →
      x.checksummer.currentoffset < checksummer.currentoffset := by
    intro distance checksummer hle hjump
    obtain ⟨hpos, hoffset⟩ := FileCheckSummer.jump_currentoffset hjump hle
    rw [hoffset]
    exact lt_min (Nat.lt_add_of_pos_right hpos) hinside
  rcases turn_cases hturn with ⟨e, _, checksummer, -, hmoved, rfl⟩ | ⟨checksummer, hmoved | hmoved, rfl⟩
  · exact hjump ((h.sound.block_le e).trans_eq h.blocksize) hmoved
  · exact hjump h.blocksize.le hmoved
  · rw [FileCheckSummer.step_currentoffset hmoved]
    exact lt_min (Nat.lt_succ_self _) hinside

theorem Along.loop_ended (htable : s.TableSound) (hopened :
    Opened o s.diskFileMap diskfile.object diskfile.contents) (turns : Nat) :
    ∀ {x : Scan}, Along o s diskfile x → diskfile.fileSize ≤ x.checksummer.currentoffset + turns → x.loop turns = .ok y →
      y.checksummer.Ended := by
  have hended : ∀ {x : Scan}, Along o s diskfile x → ¬x.checksummer.currentoffset < x.checksummer.filesize →
      x.checksummer.Ended := fun h hout => by
    rcases h.follows with htracks | hended
    · exact absurd htracks.inside hout
    · exact hended
  induction turns with
  | zero =>
    intro x h hle hy
    cases hy
    exact hended h (by rw [h.filesize]; exact Nat.not_lt_of_le hle)
  | succ turns ih =>
    intro x h hle hy
    unfold Scan.loop at hy
    split at hy
    · next hinside =>
      split at hy
      · cases hy
      · next y' hy' =>
        have hlt := h.turn_advances hinside hy'
        exact ih ((h.turn htable hopened hinside).1 hy') (by omega) hy
    · next hout =>
      cases hy
      exact hended h hout

end
end Scan

namespace Repairer
variable {o : Outside} {s t : Repairer} {diskfile : DiskFile}

theorem confirm_eFullMatch {x : Scan} {hashes : FileHashes} (h : confirm x hashes = .eFullMatch) :
    ∃ i file, x.sourcefile = some i ∧ x.repairer.file? i = some file ∧
      file.descriptionpacket.describes x.checksummer.diskfile.fileSize hashes = true := by
  unfold confirm at h
  split at h
  · split at h
    · cases h
    · next file hfile =>
      obtain ⟨i, hi, hfile⟩ := Option.bind_eq_some_iff.mp hfile
      refine ⟨i, file, hi, hfile, ?_⟩
      split at h
      · cases h
      · next hall =>
        simp only [Bool.or_eq_true, not_or, Bool.not_eq_true, Bool.not_eq_false'] at hall
        exact hall.2
  · cases h

/-- A scan that does not fail: what it located is there, and a full match is the file that is described. -/
theorem scanDataFile_sound (hs : s.Sound o) (htable : s.TableSound)
    (hopened : Opened o s.diskFileMap diskfile.object diskfile.contents) (uninitialised : FileHashes) (sourcefile : Option Nat) :
    (∀ t, s.scanDataFile uninitialised diskfile sourcefile = .error t → Scan.Left o s t) ∧
    ∀ t i matchtype hashes, s.scanDataFile uninitialised diskfile sourcefile = .ok (t, i, matchtype, hashes) →
      Scan.Left o s t ∧ hashes.Of true diskfile.contents ∧
      (matchtype = .eFullMatch → ∃ j file, i = some j ∧ t.file? j = some file ∧
        file.descriptionpacket.Intact true diskfile.contents) := by
  unfold scanDataFile
  split
  · next hempty =>
    refine ⟨nofun, fun t i matchtype hashes h => ?_⟩
    cases h
    exact ⟨⟨rfl, rfl, hs⟩, fun hne => absurd (List.eq_nil_of_length_eq_zero hempty) hne, nofun⟩
  · split
    · refine ⟨fun t h => ?_, nofun⟩
      cases h
      exact ⟨rfl, rfl, hs⟩
    · next checksummer hstart =>
      obtain ⟨hsame, hfollows⟩ := FileCheckSummer.start_follows s.mainpacket.blocksize_pos hstart
      have halong : Scan.Along o s diskfile { repairer := s, checksummer, sourcefile } := ⟨rfl, rfl, hs, hsame, hfollows, nofun⟩
      split
      · next u hu =>
        refine ⟨fun t h => ?_, nofun⟩
        cases h
        exact (halong.loop (y := { repairer := s, checksummer, sourcefile }) htable hopened _).2 _ hu
      · next x hx =>
        refine ⟨nofun, fun t i matchtype hashes h => ?_⟩
        have hend := (halong.loop htable hopened _).1 hx
        have hfile : x.checksummer.diskfile = diskfile := hend.same.diskfile
        have hhashes := (halong.loop_ended htable hopened _ (Nat.le_add_left _ _) hx).getFileHashes
        dsimp only at h
        rw [hhashes, hfile] at h
        cases h
        have hof : FileHashes.Of true diskfile.contents ⟨md5Of diskfile.contents, md5Of (diskfile.contents.take 16384)⟩ :=
          fun _ => ⟨fun _ => rfl, rfl⟩
        refine ⟨⟨hend.plan, hend.names, hend.sound⟩, hof, fun hfull => ?_⟩
        obtain ⟨j, file, hj, hfound, hdescribes⟩ := confirm_eFullMatch hfull
        rw [hfile] at hdescribes
        exact ⟨j, file, hj, hfound, Intact.of_describes hdescribes hof⟩

end Repairer
end Par2
end Nget

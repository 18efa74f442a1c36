import Nget.Theorems.Par2Verify

/-! Files that are intact are found complete: the scan of such a file matches its blocks one after the other, and when all files of
    a set are intact the verification succeeds, whatever else is there. -/

namespace Nget

namespace FileCheckSummer

/-! ### A file that can be read -/

section
variable {s t : FileCheckSummer} (hread : ∀ offset length, s.diskfile.readable offset length = true)
include hread

theorem exists_fill : ∃ t, s.fill = some t := by
  unfold fill DiskFile.read
  split
  · exact ⟨_, rfl⟩
  · dsimp only
    split
    · rw [if_pos (hread _ _)]
      exact ⟨_, rfl⟩
    · exact ⟨_, rfl⟩

theorem exists_step (hinside : s.currentoffset < s.filesize) : ∃ t, s.step = some t := by
  unfold step
  rw [if_neg (Nat.not_le_of_lt hinside)]
  split
  · exact ⟨_, rfl⟩
  · dsimp only
    split
    · exact ⟨_, rfl⟩
    · exact exists_fill hread

theorem exists_jump (hinside : s.currentoffset < s.filesize) {distance : Nat} (hpos : 0 < distance) :
    ∃ t, s.jump distance = some t := by
  unfold jump
  rw [if_neg (Nat.not_le_of_lt hinside), if_neg (Nat.ne_of_gt hpos)]
  split
  · exact exists_step hread hinside
  · dsimp only
    split
    · exact ⟨_, rfl⟩
    · obtain ⟨t, ht⟩ := @exists_fill (keep { s with currentoffset := _, outpointer := _ }) hread
      exact ⟨_, Option.bind_eq_some_iff.mpr ⟨t, ht, rfl⟩⟩

end

theorem exists_start {diskfile : DiskFile} (hread : ∀ offset length, diskfile.readable offset length = true) (blocksize : Nat) :
    ∃ t, (new diskfile blocksize).start = some t := by
  obtain ⟨t, ht⟩ := @exists_fill { new diskfile blocksize with
    currentoffset := 0, readoffset := 0, tailpointer := 0, outpointer := 0, inpointer := blocksize } hread
  exact ⟨_, Option.bind_eq_some_iff.mpr ⟨t, ht, rfl⟩⟩

/-- What a fill leaves that reads to the end of a file or of the buffer. -/
theorem fill_buffer {s t : FileCheckSummer} (hmore : s.readoffset < s.filesize) (hroom : s.tailpointer < 2 * s.blocksize)
    (hfill : s.fill = some t) : ∃ want data, want = min (s.filesize - s.readoffset) (2 * s.blocksize - s.tailpointer) ∧
      data = (s.diskfile.contents.drop s.readoffset).take want ∧ t.outpointer = s.outpointer ∧
      t.buffer = poke (poke s.buffer s.tailpointer data) (s.tailpointer + want)
        (List.replicate (2 * s.blocksize - (s.tailpointer + want)) 0) := by
  unfold fill DiskFile.read at hfill
  dsimp only at hfill
  rw [if_neg (Nat.not_le_of_lt hmore), if_pos (lt_min (Nat.sub_pos_of_lt hmore) (Nat.sub_pos_of_lt hroom))] at hfill
  refine ⟨_, _, rfl, rfl, ?_⟩
  split at hfill
  · cases hfill
  · next data hdata =>
    split at hdata
    · cases hdata
      cases hfill
      rw [updateHashes_eq]
      exact ⟨rfl, rfl⟩
    · cases hdata

theorem start_currentoffset {diskfile : DiskFile} {blocksize : Nat} {t : FileCheckSummer}
    (hstart : (new diskfile blocksize).start = some t) : t.currentoffset = 0 := by
  obtain ⟨u, hfill, hu⟩ := Option.bind_eq_some_iff.mp hstart
  cases hu
  exact fill_currentoffset hfill

/-- At the start, what there is beyond the end of the file is zero. -/
theorem start_window {diskfile : DiskFile} {blocksize : Nat} {t : FileCheckSummer} (hblock : 0 < blocksize)
    (hpos : 0 < diskfile.fileSize) (hstart : (new diskfile blocksize).start = some t) :
    t.window blocksize = diskfile.contents.take blocksize ++ List.replicate (blocksize - diskfile.fileSize) 0 := by
  obtain ⟨u, hfill, hu⟩ := Option.bind_eq_some_iff.mp hstart
  cases hu
  obtain ⟨want, data, hwant, hdata, hout, hbuffer⟩ := fill_buffer hpos (Nat.mul_pos (by decide) hblock) hfill
  change (u.buffer.drop u.outpointer).take blocksize = _
  dsimp only [new, filesize] at hwant hdata hout hbuffer
  rw [Nat.sub_zero, Nat.sub_zero] at hwant
  rw [Nat.zero_add] at hbuffer
  have hlength : data.length = want := by
    rw [hdata, List.length_take, List.drop_zero, hwant]
    exact Nat.min_eq_left (Nat.min_le_left _ _)
  have hfront : (poke (List.replicate (2 * blocksize) 0) 0 data).take want = data := by
    have htake := @take_poke (List.replicate (2 * blocksize) 0) data 0 (Nat.zero_le _)
    rwa [Nat.zero_add, hlength, List.take_zero, List.nil_append] at htake
  rw [hout, List.drop_zero, hbuffer, poke, hfront, List.take_append_of_le_length, List.take_append, hlength,
    List.take_replicate]
  · congr 1
    · rw [hdata, List.drop_zero, List.take_take, @List.take_eq_take_min _ diskfile.contents blocksize]
      congr 1
      unfold DiskFile.fileSize at hwant
      omega
    · congr 1
      omega
  · rw [List.length_append, hlength, List.length_replicate]
    omega

end FileCheckSummer

namespace Par2

/-! ### What describes a file -/

/-- A block of a file, filled up with zeros. -/
def paddedBlock (blocksize : Nat) (contents : List UInt8) (n : Nat) : List UInt8 :=
  (contents.drop (n * blocksize)).take blocksize ++
    List.replicate (blocksize - (contents.length - n * blocksize)) 0

/-- The packets of a source file describe the contents, block by block and as a whole. -/
structure SourceFile.Describes (blocksize : Nat) (file : SourceFile) (contents : List UInt8) : Prop where
  nonempty : contents ≠ []
  fileSize : file.descriptionpacket.fileSize = contents.length
  hashFull : file.descriptionpacket.hashFull = md5Of contents
  hash16k : file.descriptionpacket.hash16k = md5Of (contents.take 16384)
  blocks : ∃ packet, file.verificationpacket = some packet ∧ ∀ n, packet.entries[n]? =
    if n * blocksize < contents.length then
      some ⟨md5Of (paddedBlock blocksize contents n), crcOf (paddedBlock blocksize contents n)⟩
    else none

/-- The entry of a block. -/
def entryOf (blocksize i : Nat) (contents : List UInt8) (n : Nat) : VerificationHashEntry :=
  ⟨i, n, crcOf (paddedBlock blocksize contents n), md5Of (paddedBlock blocksize contents n)⟩

namespace Repairer

theorem getElem?_entries_of_describes {blocksize i n : Nat} {file : SourceFile} {contents : List UInt8}
    (h : file.Describes blocksize contents) :
    (entries i file)[n]? = if n * blocksize < contents.length then some (entryOf blocksize i contents n) else none := by
  obtain ⟨packet, hpacket, hentries⟩ := h.blocks
  unfold entries
  rw [hpacket]
  dsimp only
  rw [List.getElem?_mapIdx, hentries]
  split <;> rfl

/-! ### The entries of a file among all -/

theorem allEntries_plan (s : Repairer) : s.plan.allEntries = s.allEntries := by
  have hpresent : s.plan.present = s.present.map fun f => (f.1, f.2.plan) := by
    unfold present plan
    dsimp only
    rw [List.zipIdx_map, List.filterMap_map, List.map_filterMap]
    refine List.filterMap_congr fun f _ => ?_
    rcases f with ⟨_ | file, i⟩ <;> rfl
  unfold allEntries
  rw [hpresent, List.flatMap_map]
  rfl

theorem allEntries_of_plan {s t : Repairer} (h : t.plan = s.plan) : t.allEntries = s.allEntries := by
  rw [← allEntries_plan, h, allEntries_plan]

/-- The table gives all entries with a checksum and a hash. -/
def TableExact (s : Repairer) : Prop :=
  ∀ crc hash, s.verificationhashtable.lookup crc hash = s.allEntries.filter (·.Has crc hash)

theorem TableExact.of_plan {s t : Repairer} (h : s.TableExact) (hplan : t.plan = s.plan) : t.TableExact := by
  intro crc hash
  rw [table_of_plan hplan, h, allEntries_of_plan hplan]

theorem pairwise_present (s : Repairer) : s.present.Pairwise fun f g => f.1 < g.1 := by
  have hsorted : s.sourcefiles.zipIdx.Pairwise fun f g => f.2 < g.2 := by
    rw [← List.pairwise_map (f := Prod.snd), List.zipIdx_map_snd]
    exact List.pairwise_lt_range'
  unfold present
  refine hsorted.filterMap _ fun f g hlt f' hf g' hg => ?_
  obtain ⟨_, -, rfl⟩ := Option.map_eq_some_iff.mp hf
  obtain ⟨_, -, rfl⟩ := Option.map_eq_some_iff.mp hg
  exact hlt

/-- The entries of a file stand together; before them are those of other files. -/
theorem allEntries_split {s : Repairer} {i : Nat} {file : SourceFile} (h : s.file? i = some file) :
    ∃ before after, s.allEntries = before ++ (entries i file ++ after) ∧ ∀ e ∈ before, e.sourcefile ≠ i := by
  obtain ⟨front, back, hsplit⟩ := List.append_of_mem (mem_present.mpr h)
  have hpairwise := s.pairwise_present
  refine ⟨front.flatMap fun f => entries f.1 f.2, back.flatMap fun f => entries f.1 f.2, ?_, fun e he => ?_⟩
  · unfold allEntries
    rw [hsplit, List.flatMap_append, List.flatMap_cons]
  · obtain ⟨f, hf, hmem⟩ := List.mem_flatMap.mp he
    obtain ⟨n, hn⟩ := List.mem_iff_getElem?.mp hmem
    obtain ⟨_, _, -, -, rfl⟩ := getElem?_entries.mp hn
    rw [hsplit] at hpairwise
    exact Nat.ne_of_lt ((List.pairwise_append.mp hpairwise).2.2 f hf _ List.mem_cons_self)

end Repairer

/-! ### The blocks of an intact file -/

/-- Of the source file, no block from a number on has been found, and no file is complete for it. -/
structure SourceFile.Pending (blocksize : Nat) (contents : List UInt8) (start : Nat) (file : SourceFile) : Prop where
  describes : file.Describes blocksize contents
  incomplete : file.completefile = none
  blocks : ∀ n, n * blocksize < contents.length → ∃ b, file.sourceblocks[n]? = some b ∧
    b.length = min blocksize (contents.length - n * blocksize) ∧ (start ≤ n → b.isSet = false)

theorem SourceFile.Pending.setLocation {blocksize n d offset : Nat} {contents : List UInt8} {file : SourceFile}
    (h : file.Pending blocksize contents n) :
    ({ file with sourceblocks := file.sourceblocks.modify n (·.setLocation d offset) } : SourceFile).Pending blocksize contents
      (n + 1) := by
  refine ⟨⟨h.describes.nonempty, h.describes.fileSize, h.describes.hashFull, h.describes.hash16k, h.describes.blocks⟩,
    h.incomplete, fun m hm => ?_⟩
  obtain ⟨b, hb, hlength, hunset⟩ := h.blocks m hm
  refine ⟨if n = m then b.setLocation d offset else b, ?_, ?_, fun hlt => ?_⟩
  · dsimp only
    rw [List.getElem?_modify, hb]
    rfl
  · split
    · exact hlength
    · exact hlength
  · rw [if_neg (Nat.ne_of_lt hlt)]
    exact hunset (Nat.le_of_succ_le hlt)

namespace Repairer

section
variable {s : Repairer} {c : FileCheckSummer} {i n start : Nat} {file : SourceFile} {contents : List UInt8}

theorem block_entryOf (hfile : s.file? i = some file) (h : file.Pending s.blocksize contents start)
    (hn : n * s.blocksize < contents.length) :
    (s.block (entryOf s.blocksize i contents n)).length = min s.blocksize (contents.length - n * s.blocksize) ∧
      (start ≤ n → s.isSet (entryOf s.blocksize i contents n) = false) := by
  obtain ⟨b, hb, hlength, hunset⟩ := h.blocks n hn
  have hblock : s.block (entryOf s.blocksize i contents n) = b := block_eq hfile hb
  unfold isSet
  rw [hblock]
  exact ⟨hlength, hunset⟩

theorem next_entryOf (hfile : s.file? i = some file) (h : file.Describes s.blocksize contents) :
    s.next (entryOf s.blocksize i contents n) =
      if (n + 1) * s.blocksize < contents.length then some (entryOf s.blocksize i contents (n + 1)) else none := by
  unfold next
  rw [show s.file? (entryOf s.blocksize i contents n).sourcefile = some file from hfile, Option.bind_some]
  exact getElem?_entries_of_describes h

/-- The first block of the file is looked up: the entries before its own are those of other files. -/
theorem lookup_first (htable : s.TableExact) (hfile : s.file? i = some file) (h : file.Describes s.blocksize contents) :
    ∃ before after, s.verificationhashtable.lookup (entryOf s.blocksize i contents 0).crc
      (entryOf s.blocksize i contents 0).hash =
      before ++ entryOf s.blocksize i contents 0 :: after ∧ ∀ e ∈ before, e.sourcefile ≠ i := by
  obtain ⟨before, after, hsplit, hbefore⟩ := allEntries_split hfile
  have hfirst := getElem?_entries_of_describes (i := i) (n := 0) h
  rw [Nat.zero_mul, if_pos (List.length_pos_iff.mpr h.nonempty)] at hfirst
  rcases hentries : entries i file with _ | ⟨e, rest⟩
  · rw [hentries] at hfirst
    cases hfirst
  · rw [hentries] at hfirst
    obtain rfl : e = entryOf s.blocksize i contents 0 := Option.some.inj hfirst
    have hlookup := htable (entryOf s.blocksize i contents 0).crc (entryOf s.blocksize i contents 0).hash
    rw [hsplit, hentries, List.filter_append, List.cons_append, List.filter_cons, if_pos (decide_eq_true ⟨rfl, rfl⟩)] at hlookup
    exact ⟨_, _, hlookup, fun e he => hbefore e (List.mem_of_mem_filter he)⟩

/-- At the beginning of the file its first block is found. -/
theorem findMatch_first (htable : s.TableExact) (hfile : s.file? i = some file) (h : file.Pending s.blocksize contents 0)
    (hoffset : c.currentoffset = 0) (hsize : c.filesize = contents.length) (hblocksize : c.blocksize = s.blocksize)
    (hchecksum : c.checksum = crcOf (paddedBlock s.blocksize contents 0)) (hhash :
      c.hash = md5Of (paddedBlock s.blocksize contents 0)) :
    (s.findMatch c none (some i)).1 = some (entryOf s.blocksize i contents 0) := by
  have hpos : 0 * s.blocksize < contents.length := by
    rw [Nat.zero_mul]
    exact List.length_pos_iff.mpr h.describes.nonempty
  obtain ⟨hlength, hunset⟩ := block_entryOf (i := i) hfile h hpos
  have hright : s.wrongLength c (entryOf s.blocksize i contents 0) = false := by
    unfold wrongLength FileCheckSummer.blockLength
    rw [hlength, hoffset, hsize, hblocksize, Nat.zero_mul, bne_self_eq_false, Bool.and_false]
  have huse : s.usable c (entryOf s.blocksize i contents 0) = true := by
    unfold usable
    rw [hunset (Nat.le_refl _), hright]
    rfl
  obtain ⟨before, after, hlookup, hbefore⟩ := lookup_first htable hfile h.describes
  have hfind : (before ++ entryOf s.blocksize i contents 0 :: after).find?
      (fun entry => decide (some entry.sourcefile = some i) && s.usable c entry) = some (entryOf s.blocksize i contents 0) := by
    rw [List.find?_append, List.find?_eq_none.mpr, Option.none_or, List.find?_cons_of_pos]
    · rw [huse, Bool.and_true]
      exact decide_eq_true rfl
    · intro e he hmatch
      rw [Bool.and_eq_true, decide_eq_true_eq] at hmatch
      exact hbefore e he (Option.some.inj hmatch.1)
  have hmatches : s.verificationhashtable.lookup c.checksum c.hash = before ++ entryOf s.blocksize i contents 0 :: after := by
    rw [hchecksum, hhash]
    exact hlookup
  unfold findMatch
  rw [Option.filter_none, hmatches]
  rcases hlist : before ++ entryOf s.blocksize i contents 0 :: after with _ | ⟨e, _ | ⟨e', rest⟩⟩
  · exact absurd hlist (by simp)
  · -- The entry is the only one with its checksum and hash.
    have hmem : entryOf s.blocksize i contents 0 ∈ [e] := hlist ▸ List.mem_append_right _ List.mem_cons_self
    obtain rfl := List.mem_singleton.mp hmem
    dsimp only
    unfold oneMatch
    rw [show s.file? (entryOf s.blocksize i contents 0).sourcefile = some file from hfile, Option.bind_some, h.incomplete,
      if_neg (by decide), if_neg (by rw [hright]; decide), if_pos (by rw [hoffset]; rfl)]
  · dsimp only
    unfold manyMatches
    rw [← hlist, hfind]

/-- Where a block of the file is expected, it is found. -/
theorem findMatch_suggested {entry : VerificationHashEntry} (h : s.suggestedMatches c entry = true) (sourcefile : Option Nat) :
    (s.findMatch c (some entry) sourcefile).1 = some entry := by
  unfold findMatch
  rw [Option.filter_some, if_pos h]

theorem suggestedMatches_entryOf (hfile : s.file? i = some file) (h : file.Pending s.blocksize contents n) (hc : c.Tracks)
    (hcontents : c.diskfile.contents = contents) (hblocksize : c.blocksize = s.blocksize)
    (hoffset : c.currentoffset = n * s.blocksize) : s.suggestedMatches c (entryOf s.blocksize i contents n) = true := by
  have hinside : n * s.blocksize < contents.length := by
    have hinside := hc.inside
    rwa [hoffset, FileCheckSummer.filesize, DiskFile.fileSize, hcontents] at hinside
  obtain ⟨hlength, hunset⟩ := block_entryOf (i := i) hfile h hinside
  have hleft : c.blockLength = min s.blocksize (contents.length - n * s.blocksize) := by
    rw [FileCheckSummer.blockLength, hblocksize, hoffset, FileCheckSummer.filesize, DiskFile.fileSize, hcontents]
  unfold suggestedMatches
  rw [next_entryOf hfile h.describes]
  by_cases hlast : (n + 1) * s.blocksize < contents.length
  · -- A whole block: the window is the block.
    have hwhole : s.blocksize ≤ contents.length - n * s.blocksize := by
      rw [Nat.succ_mul] at hlast
      omega
    have hwindow : c.window c.blocksize = paddedBlock s.blocksize contents n := by
      rw [hblocksize, hc.window_take (by rw [hleft, Nat.min_eq_left hwhole]), hcontents, hoffset, paddedBlock,
        Nat.sub_eq_zero_of_le hwhole, List.replicate_zero, List.append_nil]
    rw [if_pos hlast]
    dsimp only
    rw [hunset (Nat.le_refl _), hc.checksum, FileCheckSummer.hash_eq, hwindow]
    simp [entryOf]
  · -- The last block: the window is cut to its length.
    have hrest : contents.length - n * s.blocksize ≤ s.blocksize := by
      rw [Nat.succ_mul] at hlast
      omega
    have hdata : c.window (contents.length - n * s.blocksize) = (contents.drop (n * s.blocksize)).take s.blocksize := by
      rw [hc.window_take (by rw [hleft, Nat.min_eq_right hrest]), hcontents, hoffset,
        List.take_of_length_le (by rw [List.length_drop]), List.take_of_length_le (by rw [List.length_drop]; exact hrest)]
    rw [if_neg hlast]
    dsimp only
    rw [hlength, Nat.min_eq_right hrest, FileCheckSummer.shortChecksum_eq, FileCheckSummer.shortHash_eq, hdata, hblocksize]
    simp [entryOf, paddedBlock]

end
end Repairer

/-! ### The scan of an intact file -/

/-- What is left of the other source files as it was, and of this one no block from a number on found. -/
structure Repairer.FoundTo (s : Repairer) (i object : Nat) (contents : List UInt8) (n : Nat) (t : Repairer) : Prop where
  plan : t.plan = s.plan
  names : t.diskFileMap = s.diskFileMap
  others : ∀ j, j ≠ i → t.file? j = s.file? j
  file : ∃ file, t.file? i = some file ∧ file.Pending s.blocksize contents n ∧ file.targetfile = some object

theorem Repairer.FoundTo.setBlock {s t : Repairer} {i object n d offset : Nat} {contents : List UInt8}
    (h : s.FoundTo i object contents n t) :
      s.FoundTo i object contents (n + 1) (t.setBlock d offset (entryOf s.blocksize i contents n)) := by
  obtain ⟨file, hfile, hpending, htarget⟩ := h.file
  refine ⟨(t.plan_setBlock _ _ _).trans h.plan, h.names, fun j hj => ?_, _, ?_,
    @SourceFile.Pending.setLocation s.blocksize n d offset contents file hpending, htarget⟩
  · unfold Repairer.setBlock
    rw [Repairer.file?_modifyFile,
      if_neg (show ¬(entryOf s.blocksize i contents n).sourcefile = j from fun h => hj h.symm), h.others j hj,
      Option.map_id_fun]
    rfl
  · unfold Repairer.setBlock
    rw [Repairer.file?_modifyFile, hfile, if_pos (show (entryOf s.blocksize i contents n).sourcefile = i from rfl)]
    rfl

namespace Scan

/-- The scan has found the first blocks of an intact file, and nothing else. -/
structure At (s : Repairer) (i : Nat) (diskfile : DiskFile) (n : Nat) (x : Scan) : Prop where
  repairer : s.FoundTo i diskfile.object diskfile.contents n x.repairer
  same : (FileCheckSummer.new diskfile s.blocksize).SameFile x.checksummer
  follows : x.checksummer.Follows
  offset : x.checksummer.currentoffset = min (n * s.blocksize) diskfile.fileSize
  sourcefile : x.sourcefile = some i
  matchtype : x.matchtype = .eFullMatch
  count : x.count = UInt32.ofNat n
  first : n = 0 → x.nextentry = none ∧ x.checksummer.window s.blocksize = paddedBlock s.blocksize diskfile.contents 0
  next : 0 < n → n * s.blocksize < diskfile.fileSize → x.nextentry = some (entryOf s.blocksize i diskfile.contents n)

section
variable {s : Repairer} {i n : Nat} {diskfile : DiskFile} {x : Scan}

theorem At.findMatch (h : At s i diskfile n x) (htable : s.TableExact) (hinside : n * s.blocksize < diskfile.fileSize) :
    (x.repairer.findMatch x.checksummer x.nextentry x.sourcefile).1 = some (entryOf s.blocksize i diskfile.contents n) := by
  have hblocksize : x.repairer.blocksize = s.blocksize := Repairer.blocksize_of_plan h.repairer.plan
  have hfilesize : x.checksummer.filesize = diskfile.fileSize := congrArg DiskFile.fileSize h.same.diskfile
  have hwidth : x.checksummer.blocksize = x.repairer.blocksize := h.same.blocksize.trans hblocksize.symm
  have hoffset : x.checksummer.currentoffset = n * s.blocksize := by
    rw [h.offset, Nat.min_eq_left (Nat.le_of_lt hinside)]
  have htracks : x.checksummer.Tracks := by
    rcases h.follows with htracks | hended
    · exact htracks
    · have hend := hended.offset
      rw [hfilesize, hoffset] at hend
      exact absurd hend (Nat.ne_of_lt hinside)
  obtain ⟨file, hfile, hpending, -⟩ := h.repairer.file
  rw [h.sourcefile]
  rw [← hblocksize] at hpending hoffset ⊢
  rcases Nat.eq_zero_or_pos n with rfl | hpos
  · obtain ⟨hnone, hwindow⟩ := h.first rfl
    rw [← hblocksize, ← hwidth] at hwindow
    rw [hnone]
    rw [hwidth] at hwindow
    refine Repairer.findMatch_first (htable.of_plan h.repairer.plan) hfile hpending (hoffset.trans (Nat.zero_mul _)) hfilesize
      hwidth ?_ ?_
    · rw [htracks.checksum, hwidth, hwindow]
    · rw [FileCheckSummer.hash_eq, hwidth, hwindow]
  · rw [h.next hpos hinside, ← hblocksize]
    exact Repairer.findMatch_suggested (Repairer.suggestedMatches_entryOf hfile hpending htracks
      (congrArg DiskFile.contents h.same.diskfile) hwidth hoffset) _

theorem blocksallocated_of_plan {s t : Repairer} (h : t.plan = s.plan) : t.blocksallocated = s.blocksallocated := by
  have hallocated := congrArg Repairer.blocksallocated h
  exact hallocated

/-- The blocks of a file that is described are few. -/
theorem Describes.lt_of_inside {blocksize : Nat} {file : SourceFile} {contents : List UInt8} (h :
    file.Describes blocksize contents)
    (hinside : n * blocksize < contents.length) : n < 32768 := by
  obtain ⟨packet, -, hentries⟩ := h.blocks
  have hentry := hentries n
  rw [if_pos hinside] at hentry
  exact (List.getElem?_eq_some_iff.mp hentry).1.trans_le packet.blockcount_le

theorem ofNat_eq_zero (h : n < 32768) : UInt32.ofNat n = 0 ↔ n = 0 := by
  rw [← UInt32.toNat_inj, UInt32.toNat_ofNat_of_lt' (h.trans (by decide))]
  rfl

theorem At.turn (h : At s i diskfile n x) (htable : s.TableExact) (hallocated : s.blocksallocated = true)
    (hread : ∀ offset length, diskfile.readable offset length = true) (hinside : n * s.blocksize < diskfile.fileSize) :
    ∃ y, x.turn = .ok y ∧ At s i diskfile (n + 1) y := by
  have hblocksize : x.repairer.blocksize = s.blocksize := Repairer.blocksize_of_plan h.repairer.plan
  have hfile : x.checksummer.diskfile = diskfile := h.same.diskfile
  have hfilesize : x.checksummer.filesize = diskfile.fileSize := congrArg DiskFile.fileSize hfile
  have hoffset : x.checksummer.currentoffset = n * s.blocksize := by
    rw [h.offset, Nat.min_eq_left (Nat.le_of_lt hinside)]
  have hin : x.checksummer.currentoffset < x.checksummer.filesize := by rwa [hoffset, hfilesize]
  have htracks : x.checksummer.Tracks := h.follows.resolve_right fun hended => absurd hended.offset (Nat.ne_of_lt hin)
  obtain ⟨file, hfound, hpending, htarget⟩ := h.repairer.file
  have hfew := Describes.lt_of_inside hpending.describes hinside
  have hlength : (x.repairer.block (entryOf s.blocksize i diskfile.contents n)).length =
      min s.blocksize (diskfile.fileSize - n * s.blocksize) := by
    rw [← hblocksize] at hpending hinside ⊢
    exact (Repairer.block_entryOf hfound hpending hinside).1
  have hpos : 0 < min s.blocksize (diskfile.fileSize - n * s.blocksize) :=
    lt_min s.mainpacket.blocksize_pos (Nat.sub_pos_of_lt hinside)
  obtain ⟨t, ht⟩ := FileCheckSummer.exists_jump (s := x.checksummer) (by rw [hfile]; exact hread) hin hpos
  obtain ⟨hsame, hfollows⟩ := htracks.jump ht
  have hjumped := (FileCheckSummer.jump_currentoffset ht
    ((Nat.min_le_left _ _).trans_eq (h.same.blocksize : x.checksummer.blocksize = s.blocksize).symm)).2
  have hmatch := h.findMatch htable hinside
  rcases hresult : x.repairer.findMatch x.checksummer x.nextentry x.sourcefile with ⟨found, duplicate⟩
  rw [hresult] at hmatch
  obtain rfl : found = some (entryOf s.blocksize i diskfile.contents n) := hmatch
  refine ⟨{ x.record (entryOf s.blocksize i diskfile.contents n) with checksummer := t }, ?_, ?_⟩
  · unfold Scan.turn
    rw [hresult]
    dsimp only
    rw [hlength, ht]
    rfl
  · have hzero : x.count = 0 ↔ n = 0 := by rw [h.count, ofNat_eq_zero hfew]
    refine ⟨?_, h.same.trans hsame, hfollows, ?_, ?_, ?_, ?_, nofun, fun _ hnext => ?_⟩
    · have hblocks : x.repairer.blocksallocated = true := (blocksallocated_of_plan h.repairer.plan).trans hallocated
      unfold Scan.record
      dsimp only
      rw [if_pos hblocks, hfile]
      exact h.repairer.setBlock
    · rw [hjumped, hoffset, hfilesize, Nat.succ_mul]
      omega
    · change (if x.count = 0 then some i else x.sourcefile) = some i
      split
      · rfl
      · exact h.sourcefile
    · unfold Scan.record
      dsimp only
      rw [h.matchtype, hoffset]
      split
      · next hfirst =>
        rw [hzero.mp hfirst, Nat.zero_mul]
        rfl
      · next hlater =>
        rw [h.next (Nat.pos_of_ne_zero fun hn => hlater (hzero.mpr hn)) hinside, if_neg fun hne => hne rfl]
    · change x.count + 1 = UInt32.ofNat (n + 1)
      rw [h.count, UInt32.ofNat_add]
      rfl
    · change x.repairer.next (entryOf s.blocksize i diskfile.contents n) = _
      rw [← hblocksize] at hpending hnext ⊢
      rw [Repairer.next_entryOf hfound hpending.describes]
      exact if_pos hnext

/-- The loop goes from block to block to the end of the file. -/
theorem At.loop (htable : s.TableExact) (hallocated : s.blocksallocated = true)
    (hread : ∀ offset length, diskfile.readable offset length = true) (turns : Nat) :
    ∀ {n : Nat} {x : Scan}, At s i diskfile n x → diskfile.fileSize ≤ n + turns →
      n * s.blocksize < diskfile.fileSize + s.blocksize →
      ∃ m y, x.loop turns = .ok y ∧ At s i diskfile m y ∧ diskfile.fileSize ≤ m * s.blocksize ∧
        m * s.blocksize < diskfile.fileSize + s.blocksize := by
  induction turns with
  | zero =>
    intro n x h hle hlt
    exact ⟨n, x, rfl, h, hle.trans (Nat.le_mul_of_pos_right n s.mainpacket.blocksize_pos), hlt⟩
  | succ turns ih =>
    intro n x h hle hlt
    have hfilesize : x.checksummer.filesize = diskfile.fileSize := congrArg DiskFile.fileSize h.same.diskfile
    unfold Scan.loop
    rw [h.offset, hfilesize]
    by_cases hinside : n * s.blocksize < diskfile.fileSize
    · obtain ⟨y, hy, hnext⟩ := h.turn htable hallocated hread hinside
      rw [if_pos (min_lt_of_left_lt hinside), hy]
      exact ih hnext (by omega) (by rw [Nat.succ_mul]; omega)
    · exact ⟨n, x, if_neg (by omega), h, Nat.le_of_not_lt hinside, hlt⟩

/-- The number of blocks of a file that is described. -/
theorem Describes.blockCount {blocksize m : Nat} {file : SourceFile} {contents : List UInt8} {packet : VerificationPacket}
    (h : file.Describes blocksize contents) (hpacket : file.verificationpacket = some packet) (hle :
      contents.length ≤ m * blocksize)
    (hlt : m * blocksize < contents.length + blocksize) : packet.blockCount = m := by
  obtain ⟨packet', hpacket', hentries⟩ := h.blocks
  obtain rfl := Option.some.inj (hpacket.symm.trans hpacket')
  have hpos : 0 < m := by
    refine Nat.pos_of_ne_zero fun hzero => h.nonempty (List.eq_nil_of_length_eq_zero (Nat.eq_zero_of_le_zero ?_))
    rwa [hzero, Nat.zero_mul] at hle
  have hend := hentries m
  have hlast := hentries (m - 1)
  have hinside : (m - 1) * blocksize < contents.length := by
    have hblock := Nat.le_mul_of_pos_left blocksize hpos
    rw [Nat.sub_mul, Nat.one_mul]
    omega
  rw [if_neg (Nat.not_lt_of_le hle)] at hend
  rw [if_pos hinside] at hlast
  have hup := List.getElem?_eq_none_iff.mp hend
  have hdown := (List.getElem?_eq_some_iff.mp hlast).1
  unfold VerificationPacket.blockCount
  omega

end
end Scan

namespace Repairer

section
variable {s : Repairer} {i : Nat} {diskfile : DiskFile}

/-- At the end, the match is confirmed. -/
theorem confirm_intact {m : Nat} {x : Scan} (h : Scan.At s i diskfile m x) (hended : x.checksummer.Ended)
    (hle : diskfile.fileSize ≤ m * s.blocksize) (hlt : m * s.blocksize < diskfile.fileSize + s.blocksize) :
    confirm x ⟨x.checksummer.getFileHashes.1, x.checksummer.getFileHashes.2⟩ = .eFullMatch := by
  obtain ⟨file, hfile, hpending, -⟩ := h.repairer.file
  obtain ⟨packet, hpacket, hentries⟩ := hpending.describes.blocks
  have hcount : packet.blockCount = m := Scan.Describes.blockCount hpending.describes hpacket hle hlt
  have hpos : 0 < packet.blockCount := packet.blockcount_pos
  have hcontents : x.checksummer.diskfile = diskfile := h.same.diskfile
  have hdescribes : file.descriptionpacket.describes x.checksummer.diskfile.fileSize
      ⟨x.checksummer.getFileHashes.1, x.checksummer.getFileHashes.2⟩ = true := by
    rw [hended.getFileHashes, hcontents]
    unfold DescriptionPacket.describes DiskFile.fileSize
    rw [hpending.describes.fileSize, hpending.describes.hashFull, hpending.describes.hash16k]
    simp only [decide_true, Bool.and_self]
  unfold confirm
  rw [h.sourcefile, Option.bind_some, hfile]
  dsimp only
  have hsome : (0 : UInt32) < UInt32.ofNat m := by
    have hfew : m < 4294967296 := hcount ▸ packet.blockcount_le.trans_lt (by decide)
    rw [UInt32.lt_iff_toNat_lt, UInt32.toNat_ofNat_of_lt' hfew]
    exact hcount ▸ hpos
  rw [hpacket, hdescribes, h.matchtype, h.count, Option.all_some, hcount, if_pos hsome]
  simp

/-- The scan of an intact file, none of whose blocks has been found yet, gives a full match. -/
theorem scanDataFile_intact (htable : s.TableExact) (hallocated : s.blocksallocated = true)
    (hread : ∀ offset length, diskfile.readable offset length = true)
    (hfresh : s.FoundTo i diskfile.object diskfile.contents 0 s) (uninitialised : FileHashes) :
    ∃ m t hashes, s.scanDataFile uninitialised diskfile (some i) = .ok (t, some i, .eFullMatch, hashes) ∧
      s.FoundTo i diskfile.object diskfile.contents m t := by
  obtain ⟨file, hfile, hpending, -⟩ := hfresh.file
  have hsize : 0 < diskfile.fileSize := List.length_pos_iff.mpr hpending.describes.nonempty
  obtain ⟨checksummer, hstart⟩ := FileCheckSummer.exists_start hread s.blocksize
  obtain ⟨hsame, hfollows⟩ := FileCheckSummer.start_follows s.mainpacket.blocksize_pos hstart
  have hat : Scan.At s i diskfile 0 { repairer := s, checksummer, sourcefile := some i } := by
    refine ⟨hfresh, hsame, hfollows, ?_, rfl, rfl, rfl, fun _ => ⟨rfl, ?_⟩, fun hpos => absurd hpos (Nat.lt_irrefl 0)⟩
    · rw [FileCheckSummer.start_currentoffset hstart, Nat.zero_mul, Nat.zero_min]
    · rw [paddedBlock, Nat.zero_mul, List.drop_zero, Nat.sub_zero]
      exact FileCheckSummer.start_window s.mainpacket.blocksize_pos hsize hstart
  obtain ⟨m, x, hloop, hend, hle, hlt⟩ := hat.loop htable hallocated hread diskfile.fileSize (by omega)
    (by rw [Nat.zero_mul]; exact Nat.add_pos_left hsize _)
  have hoffset : x.checksummer.currentoffset = x.checksummer.filesize := by
    rw [hend.offset, Nat.min_eq_right hle]
    exact (congrArg DiskFile.fileSize hend.same.diskfile).symm
  have hended : x.checksummer.Ended := hend.follows.resolve_left fun htracks => absurd hoffset (Nat.ne_of_lt htracks.inside)
  obtain ⟨file', hfile', hpending', -⟩ := hend.repairer.file
  refine ⟨m, x.repairer, ⟨x.checksummer.getFileHashes.1, x.checksummer.getFileHashes.2⟩, ?_, hend.repairer⟩
  unfold scanDataFile
  rw [if_neg (Nat.ne_of_gt hsize), show s.checksummer diskfile = .new diskfile s.blocksize from rfl, hstart]
  dsimp only
  rw [hloop]
  dsimp only
  rw [hend.sourcefile, confirm_intact hend hended hle hlt]

/-- What is left of the other source files as it was, and this one is complete. -/
structure Completed (s : Repairer) (i object : Nat) (t : Repairer) : Prop where
  plan : t.plan = s.plan
  names : t.diskFileMap = s.diskFileMap
  others : ∀ j, j ≠ i → t.file? j = s.file? j
  complete : ∃ file, t.file? i = some file ∧ file.completefile = some object ∧ file.targetfile = some object

theorem verifyDataFile_intact (htable : s.TableExact) (hallocated : s.blocksallocated = true) (hverifiable :
    s.blockverifiable = true)
    (hread : ∀ offset length, diskfile.readable offset length = true)
    (hfresh : s.FoundTo i diskfile.object diskfile.contents 0 s) (uninitialised : FileHashes) :
    ∃ t, s.verifyDataFile uninitialised diskfile (some i) = (t, true) ∧ s.Completed i diskfile.object t := by
  obtain ⟨m, t, hashes, hscan, hfound⟩ := scanDataFile_intact htable hallocated hread hfresh uninitialised
  obtain ⟨file, hfile, -, htarget⟩ := hfound.file
  refine ⟨t.setComplete diskfile.object i, ?_, (plan_setComplete _ _ _).trans hfound.plan, hfound.names, fun j hj => ?_,
    { file with completefile := some diskfile.object }, ?_, rfl, htarget⟩
  · unfold verifyDataFile
    rw [if_pos hverifiable, hscan]
  · unfold setComplete
    rw [file?_modifyFile, if_neg fun h => hj h.symm, hfound.others j hj, Option.map_id_fun]
    rfl
  · unfold setComplete
    rw [file?_modifyFile, if_pos rfl, hfile]
    rfl

end
end Repairer
end Par2
end Nget

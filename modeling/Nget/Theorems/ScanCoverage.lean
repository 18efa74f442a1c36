import Nget.Theorems.IntactSet

/-! A scan overlooks nothing: wherever a whole block of a file has the checksum and the hash of an entry, the scan jumps over it, or the
    block begins inside one that it jumps over. -/

namespace Nget.Par2

namespace Repairer
variable {s : Repairer} {c : FileCheckSummer} {suggestedentry : Option VerificationHashEntry} {sourcefile : Option Nat}

theorem oneMatch_nothing {entry : VerificationHashEntry} (h : s.oneMatch c suggestedentry entry = (none, false)) :
    c.shortBlock = true := by
  unfold oneMatch at h
  split_ifs at h with hcomplete hwrong <;> try cases h
  unfold wrongLength at hwrong
  exact (Bool.and_eq_true_iff.mp hwrong).1

theorem manyMatches_nothing {entries : List VerificationHashEntry} : s.manyMatches c sourcefile entries ≠ (none, false) := by
  unfold manyMatches
  split
  · nofun
  · intro h
    have hnone := congrArg Prod.fst h
    have hsome := congrArg Prod.snd h
    dsimp only at hnone hsome
    rw [hnone] at hsome
    cases hsome

/-- No match that is not a duplicate either: there is no entry with the checksum and the hash, or the window is cut by the end of the
    file. -/
theorem findMatch_nothing (h : s.findMatch c suggestedentry sourcefile = (none, false)) :
    s.verificationhashtable.lookup c.checksum c.hash = [] ∨ c.shortBlock = true := by
  unfold findMatch at h
  split at h
  · cases h
  · split at h
    · next hlookup => exact .inl hlookup
    · exact .inr (oneMatch_nothing h)
    · exact absurd h manyMatches_nothing

/-- The block of the entry was found, or its file is complete. -/
def Known (s : Repairer) (entry : VerificationHashEntry) : Prop :=
  s.isSet entry = true ∨ ((s.file? entry.sourcefile).bind (·.completefile)).isSome = true

theorem oneMatch_duplicate {entry : VerificationHashEntry} (h : s.oneMatch c suggestedentry entry = (none, true)) :
    s.Known entry := by
  unfold oneMatch at h
  split_ifs at h with hcomplete hwrong hfirst hsuggested hhere hset <;> try cases h
  · exact .inr hcomplete
  · exact .inl (Bool.and_eq_true_iff.mp hhere).1
  · exact .inl hset

theorem manyMatches_duplicate {entries : List VerificationHashEntry} (h : s.manyMatches c sourcefile entries = (none, true)) :
    ∀ e ∈ entries, c.shortBlock = true ∨ s.Known e := by
  unfold manyMatches at h
  split at h
  · cases h
  · intro e he
    have hunusable := List.find?_eq_none.mp (congrArg Prod.fst h) e he
    unfold usable wrongLength at hunusable
    rw [Bool.not_eq_true, Bool.not_eq_false', Bool.or_eq_true, Bool.and_eq_true] at hunusable
    rcases hunusable with hset | ⟨hshort, -⟩
    · exact .inr (.inl hset)
    · exact .inl hshort

/-- A match is a duplicate only where there is an entry with the checksum and the hash; where the window is not cut by the end of the
    file, it is known. -/
theorem findMatch_duplicate (h : s.findMatch c suggestedentry sourcefile = (none, true)) :
    ∃ e, e ∈ s.verificationhashtable.lookup c.checksum c.hash ∧ (c.shortBlock = true ∨ s.Known e) := by
  unfold findMatch at h
  split at h
  · cases h
  · split at h
    · cases h
    · next hlookup => exact ⟨_, hlookup ▸ List.mem_cons_self, .inr (oneMatch_duplicate h)⟩
    · next entries hnil _ =>
      obtain ⟨e, he⟩ := List.exists_mem_of_ne_nil _ fun hempty => hnil hempty
      exact ⟨e, he, manyMatches_duplicate h e he⟩

theorem mem_allEntries {e : VerificationHashEntry} (h : s.IsEntry e) : e ∈ s.allEntries := by
  obtain ⟨file, packet, entry, hfile, hpacket, hentry, hcrc, hhash⟩ := h
  refine List.mem_flatMap.mpr ⟨(e.sourcefile, file), mem_present.mpr hfile, ?_⟩
  refine List.mem_of_getElem? (i := e.blocknumber) (getElem?_entries.mpr ⟨packet, entry, hpacket, hentry, ?_⟩)
  rw [← hcrc, ← hhash]

theorem block_plan (s : Repairer) (e : VerificationHashEntry) : (s.plan.block e).length = (s.block e).length := by
  unfold block
  rw [file?_plan]
  cases s.file? e.sourcefile with
  | none => rfl
  | some file =>
    rw [Option.map_some, Option.bind_some, Option.bind_some]
    unfold SourceFile.plan
    dsimp only
    rw [List.getElem?_map]
    cases file.sourceblocks[e.blocknumber]? <;> rfl

/-- How long the blocks are is never changed. -/
theorem block_length_of_plan {t : Repairer} (h : t.plan = s.plan) (e : VerificationHashEntry) :
    (t.block e).length = (s.block e).length := by
  rw [← block_plan t, h, block_plan]

/-- What is known stays known when a block is found. -/
theorem Known.setBlock {e : VerificationHashEntry} (h : s.Known e) (object offset : Nat) (entry : VerificationHashEntry) :
    (s.setBlock object offset entry).Known e := by
  unfold Known isSet block Repairer.setBlock at *
  rw [file?_modifyFile]
  cases hfile : s.file? e.sourcefile with
  | none =>
    rw [hfile] at h
    exact h
  | some file =>
    rw [hfile, Option.bind_some, Option.bind_some] at h
    rw [Option.map_some, Option.bind_some, Option.bind_some]
    split
    · refine h.imp (fun hset => ?_) id
      dsimp only
      rw [List.getElem?_modify]
      cases hb : file.sourceblocks[e.blocknumber]? with
      | none =>
        rw [hb] at hset
        exact hset
      | some b =>
        rw [hb] at hset
        change (if entry.blocknumber = e.blocknumber then b.setLocation object offset else b).isSet = true
        split
        · rfl
        · exact hset
    · exact h

end Repairer

namespace Scan

/-! ### The jumps of a scan -/

/-- A jump over the block of the entry that was matched, or over a duplicate. -/
structure Jump where
  offset : Nat
  length : Nat
  entry : Option VerificationHashEntry
deriving DecidableEq

/-- What a jump leaves in the repairer: the place of the block that was matched. -/
def Jump.locate (object : Nat) (s : Repairer) (jump : Jump) : Repairer :=
  match jump.entry with
  | some entry => if s.blocksallocated then s.setBlock object jump.offset entry else s
  | none => s

/-- The jump of a turn, if it does not go on to the next character. -/
def jump? (x : Scan) : Option Jump :=
  match x.repairer.findMatch x.checksummer x.nextentry x.sourcefile with
  | (some entry, _) => some ⟨x.checksummer.currentoffset, (x.repairer.block entry).length, some entry⟩
  | (none, true) => some ⟨x.checksummer.currentoffset, x.repairer.blocksize, none⟩
  | (none, false) => none

/-- The jumps of the turns that `loop` makes. -/
def jumps : Nat → Scan → List Jump
  | 0, _ => []
  | turns + 1, x =>
    if x.checksummer.currentoffset < x.checksummer.filesize then
      match x.turn with
      | .error _ => []
      | .ok y => x.jump?.toList ++ jumps turns y
    else []

theorem jumps_of_turn {x y : Scan} {turns : Nat} (hinside : x.checksummer.currentoffset < x.checksummer.filesize)
    (hy : x.turn = .ok y) : x.jumps (turns + 1) = x.jump?.toList ++ y.jumps turns := by
  rw [jumps, if_pos hinside, hy]

theorem jumps_of_not {x : Scan} {turns : Nat} (hout : ¬x.checksummer.currentoffset < x.checksummer.filesize) :
    x.jumps (turns + 1) = [] := if_neg hout

/-- A jump is over a block of a file that begins with data of the entry which was matched, or over as much as a block where data of an
    entry begins that was known, unless the file ends before. -/
structure Jump.Sound (s t : Repairer) (diskfile : DiskFile) (jump : Jump) : Prop where
  pos : 0 < jump.length
  matched : ∀ e, jump.entry = some e → e ∈ s.allEntries ∧ jump.length = (s.block e).length ∧
    Repairer.Seen s.blocksize jump.length e.crc e.hash diskfile.contents jump.offset
  duplicate : jump.entry = none → jump.length = s.blocksize ∧ ∃ e ∈ s.allEntries,
    Repairer.Seen s.blocksize jump.length e.crc e.hash diskfile.contents jump.offset ∧
    (jump.offset + s.blocksize ≤ diskfile.fileSize → t.Known e)

/-- The block of the file at an offset is that of an entry. -/
def Standing (s : Repairer) (diskfile : DiskFile) (offset : Nat) (e : VerificationHashEntry) : Prop :=
  e.Has (crcOf ((diskfile.contents.drop offset).take s.blocksize)) (md5Of ((diskfile.contents.drop offset).take s.blocksize))

/-- The jumps up to where a scan has come: they left its repairer and were counted if they matched a block, one is behind the other, and
    no whole block of an entry begins outside of them. -/
structure Covered (s : Repairer) (diskfile : DiskFile) (jumps : List Jump) (x : Scan) : Prop where
  repairer : x.repairer = jumps.foldl (Jump.locate diskfile.object) s
  count : x.count = UInt32.ofNat (jumps.countP (·.entry.isSome))
  apart : jumps.Pairwise fun a b => a.offset + a.length ≤ b.offset
  before : ∀ jump ∈ jumps, min (jump.offset + jump.length) diskfile.fileSize ≤ x.checksummer.currentoffset
  sound : ∀ jump ∈ jumps, jump.Sound s x.repairer diskfile
  covers : ∀ start, start < x.checksummer.currentoffset → start + s.blocksize ≤ diskfile.fileSize →
    (∃ jump ∈ jumps, jump.offset ≤ start ∧ start < jump.offset + jump.length) ∨ ∀ e ∈ s.allEntries, ¬Standing s diskfile start e

section
variable {o : Outside} {s t u : Repairer} {diskfile : DiskFile} {x y : Scan} {taken : List Jump} {jump : Jump}

theorem Jump.known_locate {e : VerificationHashEntry} (h : t.Known e) (object : Nat) : (jump.locate object t).Known e := by
  unfold Jump.locate
  split
  · split
    · exact h.setBlock _ _ _
    · exact h
  · exact h

theorem Jump.Sound.locate {other : Jump} (h : jump.Sound s t diskfile) (object : Nat) :
    jump.Sound s (other.locate object t) diskfile := by
  refine ⟨h.pos, h.matched, fun hnone => ?_⟩
  obtain ⟨hlength, e, he, hseen, hknown⟩ := h.duplicate hnone
  exact ⟨hlength, e, he, hseen, fun hfit => known_locate (hknown hfit) object⟩

/-- A jump is taken. -/
theorem Covered.take (h : Covered s diskfile taken x) (hinside : x.checksummer.currentoffset < diskfile.fileSize)
    (hoffset : jump.offset = x.checksummer.currentoffset) (hsound : jump.Sound s y.repairer diskfile)
    (hrepairer : y.repairer = jump.locate diskfile.object x.repairer)
    (hcount : y.count = x.count + UInt32.ofNat ([jump].countP (·.entry.isSome)))
    (hmoved : y.checksummer.currentoffset = min (jump.offset + jump.length) diskfile.fileSize) :
    Covered s diskfile (taken ++ [jump]) y := by
  have hpos := hsound.pos
  refine ⟨?_, ?_, List.pairwise_append.mpr ⟨h.apart, List.pairwise_singleton _ _, fun a ha b hb => ?_⟩, fun a ha => ?_,
    fun a ha => ?_, fun start hlt hfit => ?_⟩
  · rw [hrepairer, h.repairer, List.foldl_append]
    rfl
  · rw [hcount, h.count, List.countP_append, UInt32.ofNat_add]
  · rw [List.mem_singleton.mp hb]
    have hbefore := h.before a ha
    omega
  · rcases List.mem_append.mp ha with hold | hnew
    · have hbefore := h.before a hold
      omega
    · rw [List.mem_singleton.mp hnew]
      exact hmoved.ge
  · rcases List.mem_append.mp ha with hold | hnew
    · rw [hrepairer]
      exact (h.sound a hold).locate _
    · rw [List.mem_singleton.mp hnew]
      exact hsound
  · by_cases hearlier : start < x.checksummer.currentoffset
    · rcases h.covers start hearlier hfit with ⟨a, ha, hin⟩ | hnone
      · exact .inl ⟨a, List.mem_append_left _ ha, hin⟩
      · exact .inr hnone
    · exact .inl ⟨jump, List.mem_append_right _ (List.mem_singleton_self _), by omega, by omega⟩

/-- Nothing is taken, and nothing is overlooked. -/
theorem Covered.pass (h : Covered s diskfile taken x) (hrepairer : y.repairer = x.repairer) (hcount : y.count = x.count)
    (hnext : y.checksummer.currentoffset ≤ x.checksummer.currentoffset + 1)
    (hle : x.checksummer.currentoffset ≤ y.checksummer.currentoffset)
    (hnone : x.checksummer.currentoffset + s.blocksize ≤ diskfile.fileSize →
      ∀ e ∈ s.allEntries, ¬Standing s diskfile x.checksummer.currentoffset e) : Covered s diskfile taken y := by
  refine ⟨hrepairer.trans h.repairer, hcount.trans h.count, h.apart, fun a ha => (h.before a ha).trans hle,
    fun a ha => hrepairer ▸ h.sound a ha, fun start hlt hfit => ?_⟩
  by_cases hearlier : start < x.checksummer.currentoffset
  · exact h.covers start hearlier hfit
  · obtain rfl : start = x.checksummer.currentoffset := by omega
    exact .inr (hnone hfit)

/-- The window begins with what the file has from here on. -/
theorem Along.take_prefix (h : Along o s diskfile x) (hinside : x.checksummer.currentoffset < x.checksummer.filesize) {length : Nat}
    (hle : length ≤ s.blocksize) :
    (diskfile.contents.drop x.checksummer.currentoffset).take length <+: x.checksummer.window s.blocksize := by
  have htracks := h.tracks hinside
  have hwidth : x.checksummer.blocksize = s.blocksize := h.same.blocksize
  rw [← show x.checksummer.diskfile = diskfile from h.same.diskfile]
  exact (htracks.data_prefix (hle.trans_eq hwidth.symm)).trans (List.take_prefix_take_left hle)

/-- What is looked up are the entries that have the checksum and the hash of the window. -/
theorem Along.mem_lookup (h : Along o s diskfile x) (htable : s.TableExact)
    (hinside : x.checksummer.currentoffset < x.checksummer.filesize) {e : VerificationHashEntry} :
    e ∈ x.repairer.verificationhashtable.lookup x.checksummer.checksum x.checksummer.hash ↔
      e ∈ s.allEntries ∧ e.Has (crcOf (x.checksummer.window s.blocksize)) (md5Of (x.checksummer.window s.blocksize)) := by
  have hwidth : x.checksummer.blocksize = s.blocksize := h.same.blocksize
  rw [Repairer.table_of_plan h.plan, htable, List.mem_filter, decide_eq_true_eq, (h.tracks hinside).checksum,
    FileCheckSummer.hash_eq, hwidth]

theorem Along.jump_offset (h : Along o s diskfile x) {length : Nat} {checksummer : FileCheckSummer} (hle : length ≤ s.blocksize)
    (hjump : x.checksummer.jump length = some checksummer) :
    0 < length ∧ checksummer.currentoffset = min (x.checksummer.currentoffset + length) diskfile.fileSize := by
  have hwidth : x.checksummer.blocksize = s.blocksize := h.same.blocksize
  rw [← h.filesize]
  exact FileCheckSummer.jump_currentoffset hjump (hle.trans_eq hwidth.symm)

/-- The window is cut by the end of the file only where no whole block is left. -/
theorem Along.not_shortBlock (h : Along o s diskfile x) (hfit : x.checksummer.currentoffset + s.blocksize ≤ diskfile.fileSize) :
    x.checksummer.shortBlock = false := by
  have hwidth : x.checksummer.blocksize = s.blocksize := h.same.blocksize
  unfold FileCheckSummer.shortBlock FileCheckSummer.blockLength
  rw [hwidth, h.filesize]
  exact decide_eq_false (by omega)

/-- Where nothing is found no whole block of an entry begins. -/
theorem Along.nothing_standing (h : Along o s diskfile x) (htable : s.TableExact)
    (hinside : x.checksummer.currentoffset < x.checksummer.filesize)
    (hfound : x.repairer.findMatch x.checksummer x.nextentry x.sourcefile = (none, false))
    (hfit : x.checksummer.currentoffset + s.blocksize ≤ diskfile.fileSize) :
    ∀ e ∈ s.allEntries, ¬Standing s diskfile x.checksummer.currentoffset e := by
  intro e he hstanding
  have hfilesize := h.filesize
  have hwidth : x.checksummer.blocksize = s.blocksize := h.same.blocksize
  have hblock : x.checksummer.window s.blocksize =
      (diskfile.contents.drop x.checksummer.currentoffset).take s.blocksize := by
    rw [(h.tracks hinside).window_take, show x.checksummer.diskfile = diskfile from h.same.diskfile]
    unfold FileCheckSummer.blockLength
    omega
  rcases Repairer.findMatch_nothing hfound with hempty | hshort
  · have hmem := (h.mem_lookup htable hinside).mpr ⟨he, by rw [hblock]; exact hstanding⟩
    rw [hempty] at hmem
    cases hmem
  · rw [h.not_shortBlock hfit] at hshort
    cases hshort

/-- A duplicate is of an entry whose data begin here, and which is known unless the file ends within a block. -/
theorem Along.duplicate_sound (h : Along o s diskfile x) (htable : s.TableExact)
    (hinside : x.checksummer.currentoffset < x.checksummer.filesize)
    (hfound : x.repairer.findMatch x.checksummer x.nextentry x.sourcefile = (none, true)) :
    ∃ e ∈ s.allEntries, Repairer.Seen s.blocksize s.blocksize e.crc e.hash diskfile.contents x.checksummer.currentoffset ∧
      (x.checksummer.currentoffset + s.blocksize ≤ diskfile.fileSize → x.repairer.Known e) := by
  obtain ⟨e, he, hknown⟩ := Repairer.findMatch_duplicate hfound
  obtain ⟨hmem, hcrc, hhash⟩ := (h.mem_lookup htable hinside).mp he
  have hwidth : x.checksummer.blocksize = s.blocksize := h.same.blocksize
  refine ⟨e, hmem, ?_, fun hfit => ?_⟩
  · exact ⟨_, (h.tracks hinside).length_window hwidth.ge, hcrc.symm, hhash.symm, h.take_prefix hinside (Nat.le_refl _)⟩
  · rcases hknown with hshort | hknown
    · rw [h.not_shortBlock hfit] at hshort
      cases hshort
    · exact hknown

/-- A turn takes its jump or passes a character. -/
theorem Covered.turn (h : Covered s diskfile taken x) (halong : Along o s diskfile x)
    (htable : s.TableExact) (hsound : s.TableSound) (hinside : x.checksummer.currentoffset < x.checksummer.filesize)
    (hturn : x.turn = .ok y) : Covered s diskfile (taken ++ x.jump?.toList) y := by
  have hfilesize := halong.filesize
  have hwidth : x.checksummer.blocksize = s.blocksize := halong.same.blocksize
  have hsize : x.repairer.blocksize = s.blocksize := halong.blocksize.trans hwidth
  have hfile : x.checksummer.diskfile = diskfile := halong.same.diskfile
  have hnothing := halong.nothing_standing htable hinside
  have hduplicate := halong.duplicate_sound htable hinside
  have htracks := halong.tracks hinside
  rw [hfilesize] at hinside
  unfold Scan.turn at hturn
  unfold jump?
  rcases hfound : x.repairer.findMatch x.checksummer x.nextentry x.sourcefile with ⟨_ | e, _ | _⟩ <;> rw [hfound] at hturn <;>
    obtain ⟨checksummer, hmoved, rfl⟩ := advance_ok hturn
  · -- Nothing is found here.
    have hstep := FileCheckSummer.step_currentoffset hmoved
    dsimp only [Option.toList_none]
    rw [List.append_nil]
    exact h.pass rfl rfl (by dsimp only; omega) (by dsimp only; omega) (hnothing hfound)
  · -- A duplicate: a whole block is jumped over.
    rw [hsize] at hmoved
    obtain ⟨hpos, hoffset⟩ := halong.jump_offset (Nat.le_refl _) hmoved
    dsimp only [Option.toList_some]
    rw [hsize]
    exact h.take hinside rfl ⟨hpos, nofun, fun _ => ⟨rfl, hduplicate hfound⟩⟩ rfl (UInt32.add_zero _).symm hoffset
  all_goals
    obtain ⟨hentry, hseen⟩ := Repairer.findMatch_sound (hsound.of_plan halong.plan) htracks
      ((halong.sound.block_le e).trans_eq halong.blocksize) halong.next hfound
    have hle : (x.repairer.block e).length ≤ s.blocksize := (halong.sound.block_le e).trans_eq hsize
    obtain ⟨hpos, hoffset⟩ := halong.jump_offset hle hmoved
    rw [hwidth, hfile] at hseen
    dsimp only [Option.toList_some]
    refine h.take hinside rfl ⟨hpos, fun e' he' => ?_, nofun⟩ (by rw [← hfile]; rfl) rfl hoffset
    cases he'
    have hlength := Repairer.block_length_of_plan halong.plan e
    exact ⟨Repairer.mem_allEntries (hentry.of_plan halong.plan.symm), hlength, hseen⟩

theorem Covered.loop (htable : s.TableExact) (hsound : s.TableSound)
    (hopened : Opened o s.diskFileMap diskfile.object diskfile.contents) (turns : Nat) :
    ∀ {x : Scan} {taken : List Jump}, Covered s diskfile taken x → Along o s diskfile x →
      x.loop turns = .ok y → Covered s diskfile (taken ++ x.jumps turns) y := by
  induction turns with
  | zero =>
    intro x taken h _ hy
    cases hy
    unfold Scan.jumps
    rwa [List.append_nil]
  | succ turns ih =>
    intro x taken h halong hy
    unfold Scan.loop at hy
    split at hy
    · next hinside =>
      split at hy
      · cases hy
      · next y' hy' =>
        rw [jumps_of_turn hinside hy', ← List.append_assoc]
        exact ih (h.turn halong htable hsound hinside hy') ((halong.turn hsound hopened hinside).1 hy') hy
    · next hout =>
      rw [jumps_of_not hout, List.append_nil]
      cases hy
      exact h

end
end Scan

/-- The jumps of the scan of a file. -/
def Repairer.scanJumps (diskfile : DiskFile) (sourcefile : Option Nat) (s : Repairer) : List Scan.Jump :=
  match (s.checksummer diskfile).start with
  | none => []
  | some checksummer => Scan.jumps diskfile.fileSize { repairer := s, checksummer, sourcefile }

theorem Repairer.scanJumps_of_start {s : Repairer} {diskfile : DiskFile} {sourcefile : Option Nat} {checksummer : FileCheckSummer}
    (h : (s.checksummer diskfile).start = some checksummer) : s.scanJumps diskfile sourcefile =
      Scan.jumps diskfile.fileSize { repairer := s, checksummer, sourcefile } := by
  rw [scanJumps, h]

/-- Of an empty file there is nothing to scan. -/
theorem Repairer.scanJumps_of_empty {s : Repairer} {diskfile : DiskFile} {sourcefile : Option Nat} (h : diskfile.fileSize = 0) :
    s.scanJumps diskfile sourcefile = [] := by
  unfold scanJumps
  rw [h]
  split <;> rfl

/-- There is a match exactly where blocks were counted. -/
theorem confirm_eNoMatch {x : Scan} {hashes : FileHashes} : Repairer.confirm x hashes = .eNoMatch ↔ x.count = 0 := by
  unfold Repairer.confirm
  constructor
  · intro h
    by_contra hcount
    rw [if_pos (UInt32.pos_iff_ne_zero.mpr hcount)] at h
    split at h
    · cases h
    · split at h
      · cases h
      · next hall =>
        refine hall ?_
        rw [h]
        rfl
  · intro h
    rw [h, if_neg (UInt32.lt_irrefl 0)]

/-- Wherever the repairer has come to in a verification: a scan of a file that does not fail locates the blocks that its jumps matched,
    where they were, and says that there are none if it counted none. The jumps do not overlap; each begins where data with the
    checksum and the hash of an entry was seen; and every whole block of the file that is that of an entry begins inside a jump. -/
theorem scan_overlooks_nothing {o : Outside} {packets : Packets} {mainpacket : MainPacket} {searchpath : Text} {loaded : List Text}
    {s t : Repairer} {diskfile : DiskFile} {sourcefile i : Option Nat} {matchtype : MatchType} {uninitialised hashes : FileHashes}
    (hs : Repairer.Running o (prepare packets mainpacket searchpath loaded) s)
    (hopened : Opened o s.diskFileMap diskfile.object diskfile.contents)
    (hscan : s.scanDataFile uninitialised diskfile sourcefile = .ok (t, i, matchtype, hashes)) :
    t = (s.scanJumps diskfile sourcefile).foldl (Scan.Jump.locate diskfile.object) s ∧
    (matchtype = .eNoMatch ↔ UInt32.ofNat ((s.scanJumps diskfile sourcefile).countP (·.entry.isSome)) = 0) ∧
    ((s.scanJumps diskfile sourcefile).Pairwise fun a b => a.offset + a.length ≤ b.offset) ∧
    (∀ jump ∈ s.scanJumps diskfile sourcefile, jump.Sound s t diskfile) ∧
    ∀ start, start + s.blocksize ≤ diskfile.fileSize → ∀ e ∈ s.allEntries,
      e.crc = crcOf ((diskfile.contents.drop start).take s.blocksize) →
      e.hash = md5Of ((diskfile.contents.drop start).take s.blocksize) →
      ∃ jump ∈ s.scanJumps diskfile sourcefile, jump.offset ≤ start ∧ start < jump.offset + jump.length := by
  have htable : s.TableExact := tableExact_prepare.of_plan hs.plan
  have hsound : s.TableSound := tableSound_prepare.of_plan hs.plan
  unfold Repairer.scanDataFile at hscan
  split at hscan
  · next hempty =>
    have hpos := s.mainpacket.blocksize_pos
    rw [Repairer.scanJumps_of_empty hempty]
    cases hscan
    refine ⟨rfl, ⟨fun _ => rfl, fun _ => rfl⟩, .nil, nofun, fun start hfit => ?_⟩
    unfold Repairer.blocksize at hfit
    omega
  split at hscan
  · cases hscan
  · next checksummer hstart =>
    rw [Repairer.scanJumps_of_start hstart]
    obtain ⟨hsame, hfollows⟩ := FileCheckSummer.start_follows s.mainpacket.blocksize_pos hstart
    have halong : Scan.Along o s diskfile { repairer := s, checksummer, sourcefile } :=
      ⟨rfl, rfl, hs.sound, hsame, hfollows, nofun⟩
    have hcovered : Scan.Covered s diskfile [] { repairer := s, checksummer, sourcefile } := by
      refine ⟨rfl, rfl, .nil, nofun, nofun, fun start hlt => ?_⟩
      dsimp only at hlt
      rw [FileCheckSummer.start_currentoffset hstart] at hlt
      cases hlt
    split at hscan
    · cases hscan
    · next x hx =>
      cases hscan
      have hjumps := hcovered.loop htable hsound hopened _ halong hx
      rw [List.nil_append] at hjumps
      have hended := halong.loop_ended hsound hopened _ (Nat.le_add_left _ _) hx
      have hend : x.checksummer.currentoffset = diskfile.fileSize :=
        hended.offset.trans ((halong.loop hsound hopened _).1 hx).filesize
      refine ⟨hjumps.repairer, by rw [confirm_eNoMatch, hjumps.count], hjumps.apart, hjumps.sound,
        fun start hfit e he hcrc hhash => ?_⟩
      have hpos : 0 < s.blocksize := s.mainpacket.blocksize_pos
      rcases hjumps.covers start (by omega) hfit with hjump | hnone
      · exact hjump
      · exact absurd ⟨hcrc, hhash⟩ (hnone e he)

/-- The sample with a character before it. -/
def shiftedOutside : Outside where
  disk _ := some { object := 0, contents := 0 :: sampleContents }

/-- The entry of a block of the sample. -/
def sampleEntry (n : Nat) : VerificationHashEntry := entryOf 4 0 sampleContents n

theorem scan_overlooks_nothing_sample : ∃ t i matchtype hashes,
    ((prepare samplePackets sampleMain [] []).insertDiskFile ['b']).scanDataFile ⟨[], []⟩
      { object := 0, contents := 0 :: sampleContents } none = .ok (t, i, matchtype, hashes) ∧
    t = (((((prepare samplePackets sampleMain [] []).insertDiskFile ['b']).setBlock 0 1 (sampleEntry 0)).setBlock 0 5
      (sampleEntry 1)).setBlock 0 9 (sampleEntry 2)) ∧ matchtype ≠ .eNoMatch ∧
    ∃ jump ∈ [⟨1, 4, some (sampleEntry 0)⟩, ⟨5, 4, some (sampleEntry 1)⟩, (⟨9, 1, some (sampleEntry 2)⟩ : Scan.Jump)],
      jump.offset ≤ 5 ∧ 5 < jump.offset + jump.length := by
  have hok : (((prepare samplePackets sampleMain [] []).insertDiskFile ['b']).scanDataFile ⟨[], []⟩
      { object := 0, contents := 0 :: sampleContents } none).isOk = true := by decide +kernel
  have hjumps : ((prepare samplePackets sampleMain [] []).insertDiskFile ['b']).scanJumps
      { object := 0, contents := 0 :: sampleContents } none =
      [⟨1, 4, some (sampleEntry 0)⟩, ⟨5, 4, some (sampleEntry 1)⟩, ⟨9, 1, some (sampleEntry 2)⟩] := by decide +kernel
  have hrunning : Repairer.Running shiftedOutside (prepare samplePackets sampleMain [] [])
      ((prepare samplePackets sampleMain [] []).insertDiskFile ['b']) := ⟨rfl, (sound_prepare _).insertDiskFile _⟩
  cases hr : ((prepare samplePackets sampleMain [] []).insertDiskFile ['b']).scanDataFile ⟨[], []⟩
      { object := 0, contents := 0 :: sampleContents } none with
  | error t => rw [hr] at hok; cases hok
  | ok r =>
    obtain ⟨t, i, matchtype, hashes⟩ := r
    obtain ⟨hlocated, hmatch, -, -, hcovers⟩ := scan_overlooks_nothing hrunning ⟨['b'], _, rfl, rfl, rfl⟩ hr
    have hjump := hcovers 5 (by decide) (sampleEntry 1) (List.mem_of_getElem? (i := 1) rfl) rfl rfl
    rw [hjumps] at hlocated hmatch hjump
    exact ⟨t, i, matchtype, hashes, rfl, hlocated, fun hnone => absurd (hmatch.mp hnone) (by decide), hjump⟩

end Nget.Par2

import Nget.FileCheckSummer
import Nget.Theorems.Crc
import Nget.Theorems.Md5

/-! Wherever a `FileCheckSummer` has gone in a file, its window begins with the data of the file at its offset, its checksum is
    that of the window, and at the end its hashes are those of the file. What stands in the window beyond the end of the file
    is left open: it is not always zero, since `Fill` blanks nothing once the file has been read. -/

namespace Nget

/-! ### Buffers -/

theorem length_poke {buffer data : List UInt8} {position : Nat} (h : position + data.length ≤ buffer.length) :
    (poke buffer position data).length = buffer.length := by
  unfold poke
  simp only [List.length_append, List.length_take, List.length_drop]
  omega

theorem take_poke {buffer data : List UInt8} {position : Nat} (h : position ≤ buffer.length) :
    (poke buffer position data).take (position + data.length) = buffer.take position ++ data := by
  unfold poke
  refine List.take_left' ?_
  rw [List.length_append, List.length_take_of_le h]

theorem take_poke_of_le {buffer data : List UInt8} {position n : Nat} (h : position ≤ buffer.length) (hn : n ≤ position) :
    (poke buffer position data).take n = buffer.take n := by
  unfold poke
  rw [List.append_assoc, List.take_append_of_le_length (by rw [List.length_take_of_le h]; exact hn), List.take_take,
    Nat.min_eq_left hn]

namespace FileCheckSummer

/-- The file, the length of the window and its tables are the same. -/
structure SameFile (s t : FileCheckSummer) : Prop where
  diskfile : t.diskfile = s.diskfile
  blocksize : t.blocksize = s.blocksize
  windowtable : t.windowtable = s.windowtable
  windowmask : t.windowmask = s.windowmask

/-- What has been read of the file went into the hashes. -/
structure Hashed (s : FileCheckSummer) : Prop where
  first : s.context16k = .of (s.diskfile.contents.take (min s.readoffset 16384))
  full : 16384 ≤ s.readoffset → s.contextfull = .of (s.diskfile.contents.take s.readoffset)

/-- The buffer holds what has been read of the file, from the offset on. -/
structure Buffered (s : FileCheckSummer) : Prop where
  pos : 0 < s.blocksize
  size : s.buffer.length = 2 * s.blocksize
  out_le : s.outpointer ≤ s.tailpointer
  tail_le : s.tailpointer ≤ 2 * s.blocksize
  read : s.readoffset + s.outpointer = s.currentoffset + s.tailpointer
  read_le : s.readoffset ≤ s.filesize
  data : (s.buffer.take s.tailpointer).drop s.outpointer = (s.diskfile.contents.take s.readoffset).drop s.currentoffset
  hashed : Hashed s

/-! ### Reading -/

theorem Hashed.update {s : FileCheckSummer} (h : Hashed s) {data : List UInt8} {want : Nat}
    (hdata : data = (s.diskfile.contents.drop s.readoffset).take want) (hwant : s.readoffset + want ≤ s.filesize) :
    Hashed { s.updateHashes s.readoffset data with readoffset := s.readoffset + want } := by
  have hlen : data.length = want := by
    rw [hdata, List.length_take_of_le]
    rw [List.length_drop]
    unfold filesize DiskFile.fileSize at hwant
    omega
  have hall : s.diskfile.contents.take (s.readoffset + want) = s.diskfile.contents.take s.readoffset ++ data := by
    rw [hdata, List.take_add]
  unfold updateHashes
  rw [hlen]
  by_cases hbeyond : 16384 ≤ s.readoffset
  · rw [if_pos hbeyond]
    refine ⟨?_, fun _ => ?_⟩
    · change s.context16k = _
      rw [h.first, Nat.min_eq_right hbeyond, Nat.min_eq_right (Nat.le_add_right_of_le hbeyond)]
    · change s.contextfull.update data = _
      rw [h.full hbeyond, MD5Context.of_update, ← hall]
  rw [if_neg hbeyond]
  have hfirst : s.context16k = .of (s.diskfile.contents.take s.readoffset) := by
    rw [h.first, Nat.min_eq_left (by omega)]
  by_cases hreach : 16384 ≤ s.readoffset + want
  · rw [if_pos hreach]
    have hcut : s.diskfile.contents.take 16384 = s.diskfile.contents.take s.readoffset ++ data.take (16384 - s.readoffset) := by
      rw [hdata, List.take_take, Nat.min_eq_left (by omega), ← List.take_add]
      congr 1
      omega
    have hmark : s.context16k.update (data.take (16384 - s.readoffset)) = .of (s.diskfile.contents.take 16384) := by
      rw [hfirst, MD5Context.of_update, ← hcut]
    refine ⟨?_, fun _ => ?_⟩
    · change s.context16k.update (data.take (16384 - s.readoffset)) = _
      rw [hmark, Nat.min_eq_right hreach]
    · change (if 16384 < s.readoffset + want then (s.context16k.update (data.take (16384 - s.readoffset))).update
          (data.drop (16384 - s.readoffset)) else s.context16k.update (data.take (16384 - s.readoffset))) = _
      rw [hmark]
      split
      · rw [MD5Context.of_update, hcut, List.append_assoc, List.take_append_drop, ← hall]
      · have hend : s.readoffset + want = 16384 := by omega
        rw [← hend]
  · rw [if_neg hreach]
    refine ⟨?_, fun hfull => absurd hfull hreach⟩
    change s.context16k.update data = .of (s.diskfile.contents.take (min (s.readoffset + want) 16384))
    rw [hfirst, MD5Context.of_update, ← hall, Nat.min_eq_left (by omega)]

/-- What `Fill` does: nothing, or the buffer is filled from the file as far as it goes. -/
structure Filled (s t : FileCheckSummer) : Prop where
  same : SameFile s t
  currentoffset : t.currentoffset = s.currentoffset
  outpointer : t.outpointer = s.outpointer
  inpointer : t.inpointer = s.inpointer
  checksum : t.checksum = s.checksum
  buffered : Buffered t
  more : t.readoffset < t.filesize → t.tailpointer = 2 * t.blocksize
  kept : t = s ∨ s.readoffset < s.filesize ∧ t.buffer.take s.tailpointer = s.buffer.take s.tailpointer

theorem updateHashes_eq (offset : Nat) (data : List UInt8) (s : FileCheckSummer) : s.updateHashes offset data =
    { s with contextfull := (s.updateHashes offset data).contextfull, context16k := (s.updateHashes offset data).context16k } := by
  unfold updateHashes
  split
  · rfl
  · split <;> rfl

/-- Data that is read goes to the end of the buffer. -/
def readMore (s : FileCheckSummer) (want : Nat) (data : List UInt8) : FileCheckSummer :=
  let t := { s with buffer := poke s.buffer s.tailpointer data }.updateHashes s.readoffset data
  { t with readoffset := t.readoffset + want, tailpointer := t.tailpointer + want }

theorem readMore_eq (s : FileCheckSummer) (want : Nat) (data : List UInt8) :
    s.readMore want data = { s with
      buffer := poke s.buffer s.tailpointer data
      readoffset := s.readoffset + want
      tailpointer := s.tailpointer + want
      contextfull := (s.readMore want data).contextfull
      context16k := (s.readMore want data).context16k } := by
  unfold readMore
  rw [updateHashes_eq]

theorem Buffered.readMore {s : FileCheckSummer} (h : Buffered s) {data : List UInt8} {want : Nat}
    (hdata : data = (s.diskfile.contents.drop s.readoffset).take want) (hwant : s.readoffset + want ≤ s.filesize)
    (hroom : s.tailpointer + want ≤ 2 * s.blocksize) : Buffered (s.readMore want data) := by
  have hhashed : Hashed (s.readMore want data) := by
    have hs : Hashed { s with buffer := poke s.buffer s.tailpointer data } := ⟨h.hashed.first, h.hashed.full⟩
    have hread := hs.update hdata hwant
    rw [updateHashes_eq] at hread
    unfold FileCheckSummer.readMore
    rw [updateHashes_eq]
    exact ⟨hread.first, hread.full⟩
  rw [readMore_eq] at hhashed ⊢
  have hlen : data.length = want := by
    rw [hdata, List.length_take_of_le]
    rw [List.length_drop]
    unfold filesize DiskFile.fileSize at hwant
    omega
  have htail : s.tailpointer ≤ s.buffer.length := h.size ▸ h.tail_le
  refine ⟨h.pos, ?_, Nat.le_add_right_of_le h.out_le, hroom, ?_, hwant, ?_, hhashed⟩
  · exact (length_poke (by rw [hlen, h.size]; exact hroom)).trans h.size
  · have := h.read
    change s.readoffset + want + s.outpointer = s.currentoffset + (s.tailpointer + want)
    omega
  · change ((poke s.buffer s.tailpointer data).take (s.tailpointer + want)).drop s.outpointer =
      (s.diskfile.contents.take (s.readoffset + want)).drop s.currentoffset
    have hread := h.read
    have hout := h.out_le
    have hle := h.read_le
    unfold filesize DiskFile.fileSize at hle
    rw [← hlen, take_poke htail, hlen, List.take_add, ← hdata,
      List.drop_append_of_le_length (by rw [List.length_take_of_le htail]; exact hout), h.data,
      List.drop_append_of_le_length (by rw [List.length_take_of_le hle]; omega)]

theorem Buffered.blank {s : FileCheckSummer} (h : Buffered s) : Buffered s.blank := by
  have htail : s.tailpointer ≤ s.buffer.length := h.size ▸ h.tail_le
  refine ⟨h.pos, ?_, h.out_le, h.tail_le, h.read, h.read_le, ?_, ⟨h.hashed.first, h.hashed.full⟩⟩
  · refine (length_poke ?_).trans h.size
    rw [List.length_replicate, h.size]
    have := h.tail_le
    omega
  · refine Eq.trans ?_ h.data
    exact congrArg (List.drop s.outpointer) (take_poke_of_le htail (Nat.le_refl _))

theorem fill_filled {s t : FileCheckSummer} (h : Buffered s) (hfill : s.fill = some t) : Filled s t := by
  have htail : s.tailpointer ≤ s.buffer.length := h.size ▸ h.tail_le
  unfold fill at hfill
  split at hfill
  · rename_i hread
    cases hfill
    exact ⟨⟨rfl, rfl, rfl, rfl⟩, rfl, rfl, rfl, rfl, h, fun hlt => absurd hread (Nat.not_le_of_lt hlt), Or.inl rfl⟩
  rename_i hread
  dsimp only at hfill
  split at hfill
  · split at hfill
    · cases hfill
    rename_i hpos data hdata
    obtain rfl := Option.some.inj hfill
    generalize hwant : min (s.filesize - s.readoffset) (2 * s.blocksize - s.tailpointer) = want at *
    have hdata' : data = (s.diskfile.contents.drop s.readoffset).take want := by
      unfold DiskFile.read at hdata
      split at hdata
      · exact (Option.some.inj hdata).symm
      · cases hdata
    have hmore := h.readMore hdata' (by omega) (by omega)
    change Filled s (s.readMore want data).blank
    rw [readMore_eq] at hmore ⊢
    refine ⟨⟨rfl, rfl, rfl, rfl⟩, rfl, rfl, rfl, rfl, hmore.blank, fun hlt => ?_, Or.inr ⟨Nat.lt_of_not_le hread, ?_⟩⟩
    · change s.readoffset + want < s.filesize at hlt
      change s.tailpointer + want = 2 * s.blocksize
      have := h.tail_le
      omega
    · have htail' : s.tailpointer + want ≤ (poke s.buffer s.tailpointer data).length := hmore.tail_le.trans_eq hmore.size.symm
      exact (take_poke_of_le htail' (Nat.le_add_right _ _)).trans (take_poke_of_le htail (Nat.le_refl _))
  · obtain rfl := Option.some.inj hfill
    refine ⟨⟨rfl, rfl, rfl, rfl⟩, rfl, rfl, rfl, rfl, h.blank, fun _ => ?_, Or.inr ⟨Nat.lt_of_not_le hread, ?_⟩⟩
    · have := h.tail_le
      change s.tailpointer = 2 * s.blocksize
      omega
    · exact take_poke_of_le htail (Nat.le_refl _)

/-! ### Moving -/

/-- The tables are those for the length of the window. -/
structure Tabled (s : FileCheckSummer) : Prop where
  windowtable : s.windowtable = generateWindowTable s.blocksize
  windowmask : s.windowmask = computeWindowMask s.blocksize

/-- The window is in the file. -/
structure Tracks (s : FileCheckSummer) : Prop where
  buffered : Buffered s
  tabled : Tabled s
  inside : s.currentoffset < s.filesize
  out_lt : s.outpointer < s.blocksize
  inp : s.inpointer = s.outpointer + s.blocksize
  more : s.readoffset < s.filesize → s.tailpointer = 2 * s.blocksize
  checksum : s.checksum = crcOf (s.window s.blocksize)

/-- The window has gone through the file, which has been read. -/
structure Ended (s : FileCheckSummer) : Prop where
  hashed : Hashed s
  tabled : Tabled s
  read : s.readoffset = s.filesize
  offset : s.currentoffset = s.filesize

def Follows (s : FileCheckSummer) : Prop := Tracks s ∨ Ended s

theorem Filled.tracks {s t : FileCheckSummer} (h : Filled s t) (htabled : Tabled s) (hinside : s.currentoffset < s.filesize)
    (hout : s.outpointer < s.blocksize) (hinp : s.inpointer = s.outpointer + s.blocksize)
    (hchecksum : t.checksum = crcOf (t.window t.blocksize)) : Tracks t := by
  have hsize : t.filesize = s.filesize := congrArg DiskFile.fileSize h.same.diskfile
  refine ⟨h.buffered, ⟨?_, ?_⟩, ?_, ?_, ?_, h.more, hchecksum⟩
  · rw [h.same.windowtable, h.same.blocksize, htabled.windowtable]
  · rw [h.same.windowmask, h.same.blocksize, htabled.windowmask]
  · rwa [h.currentoffset, hsize]
  · rwa [h.outpointer, h.same.blocksize]
  · rw [h.inpointer, h.outpointer, h.same.blocksize, hinp]

/-- What is left of the file is in the buffer, or the buffer is full. -/
theorem Tracks.ahead {s : FileCheckSummer} (h : Tracks s) :
    s.readoffset = s.filesize ∨ s.currentoffset + s.blocksize < s.readoffset := by
  have hread := h.buffered.read
  have hle := h.buffered.read_le
  have hout := h.out_lt
  by_cases hlt : s.readoffset < s.filesize
  · have := h.more hlt
    omega
  · exact Or.inl (by omega)

theorem Tracks.atEnd {s : FileCheckSummer} (h : Tracks s) (hend : s.filesize ≤ s.currentoffset + s.blocksize) :
    Ended s.atEnd := by
  have hread : s.readoffset = s.filesize := by
    have hle := h.buffered.read_le
    rcases h.ahead with hread | hread
    · exact hread
    · omega
  exact ⟨⟨h.buffered.hashed.first, h.buffered.hashed.full⟩, ⟨h.tabled.windowtable, h.tabled.windowmask⟩, hread, rfl⟩

/-- The window that `Step` slides on by one character. -/
theorem Tracks.slide {s : FileCheckSummer} (h : Tracks s) :
    s.windowmask ^^^ crcSlideChar (s.windowmask ^^^ s.checksum) (s.buffer.getD s.inpointer 0) (s.buffer.getD s.outpointer 0)
      s.windowtable = crcOf ((s.buffer.drop (s.outpointer + 1)).take s.blocksize) := by
  have hsize := h.buffered.size
  have hout := h.out_lt
  obtain ⟨m, hm⟩ := Nat.exists_eq_succ_of_ne_zero h.buffered.pos.ne'
  have hlt : s.outpointer < s.buffer.length := by omega
  have hlt' : s.outpointer + s.blocksize < s.buffer.length := by omega
  have hlen : ((s.buffer.drop (s.outpointer + 1)).take m).length = m := by
    rw [List.length_take, List.length_drop]
    omega
  have hold : s.window s.blocksize = s.buffer.getD s.outpointer 0 :: (s.buffer.drop (s.outpointer + 1)).take m := by
    unfold window
    rw [hm, List.drop_eq_getElem_cons hlt, List.take_succ_cons, List.getD_eq_getElem _ _ hlt]
  have hnew : (s.buffer.drop (s.outpointer + 1)).take s.blocksize =
      (s.buffer.drop (s.outpointer + 1)).take m ++ [s.buffer.getD s.inpointer 0] := by
    have hat : s.outpointer + 1 + m = s.inpointer := by
      have := h.inp
      omega
    rw [hm, List.take_add_one, List.getElem?_drop, hat, List.getD_eq_getElem?_getD, List.getElem?_eq_getElem (by have := h.inp; omega)]
    rfl
  have hslide := crcSlideChar_window (s.buffer.getD s.outpointer 0) (s.buffer.getD s.inpointer 0)
    ((s.buffer.drop (s.outpointer + 1)).take m)
  rw [hlen, ← Nat.succ_eq_add_one, ← hm, ← hold, ← hnew, ← h.checksum, ← h.tabled.windowmask, ← h.tabled.windowtable] at hslide
  exact hslide

/-- What is in the buffer when the offset and the window move on in it. -/
theorem Tracks.moved {s : FileCheckSummer} (h : Tracks s) {distance : Nat} (hle : distance ≤ s.blocksize)
    (hinside : s.currentoffset + distance < s.filesize) :
    s.outpointer + distance ≤ s.tailpointer ∧
    (s.buffer.take s.tailpointer).drop (s.outpointer + distance) =
      (s.diskfile.contents.take s.readoffset).drop (s.currentoffset + distance) := by
  refine ⟨?_, ?_⟩
  · have hread := h.buffered.read
    rcases h.ahead with hahead | hahead <;> omega
  · rw [← List.drop_drop, ← List.drop_drop, h.buffered.data]

/-- The data from the window on is moved to the beginning of the buffer. -/
theorem take_poke_zero {buffer : List UInt8} {out tail n : Nat} (hn : tail - out ≤ n) (hfit : out + n ≤ buffer.length) :
    (poke buffer 0 ((buffer.drop out).take n)).take (tail - out) = (buffer.take tail).drop out := by
  have hlen : ((buffer.drop out).take n).length = n := by
    rw [List.length_take, List.length_drop]
    omega
  have htake := @take_poke buffer ((buffer.drop out).take n) 0 (Nat.zero_le _)
  rw [hlen, Nat.zero_add, List.take_zero, List.nil_append] at htake
  rw [← Nat.min_eq_left hn, ← List.take_take, htake, List.take_take, Nat.min_eq_left hn, List.drop_take]

theorem Tracks.back {s : FileCheckSummer} (h : Tracks s) {distance out n i : Nat} {c : UInt32} (hle : distance ≤ s.blocksize)
    (hinside : s.currentoffset + distance < s.filesize) (hout : s.outpointer + distance = out) (hn : s.tailpointer - out ≤ n)
    (hfit : out + n ≤ 2 * s.blocksize) :
    Buffered { s with
      currentoffset := s.currentoffset + distance
      buffer := poke s.buffer 0 ((s.buffer.drop out).take n)
      inpointer := i
      outpointer := 0
      tailpointer := s.tailpointer - out
      checksum := c } := by
  subst hout
  have hmoved := h.moved hle hinside
  have hread := h.buffered.read
  have hsize := h.buffered.size
  refine ⟨h.buffered.pos, ?_, Nat.zero_le _, (Nat.sub_le _ _).trans h.buffered.tail_le, ?_, h.buffered.read_le, ?_,
    ⟨h.buffered.hashed.first, h.buffered.hashed.full⟩⟩
  · refine (length_poke ?_).trans hsize
    rw [List.length_take, List.length_drop]
    omega
  · change s.readoffset + 0 = s.currentoffset + distance + (s.tailpointer - (s.outpointer + distance))
    omega
  · exact (take_poke_zero hn (by omega)).trans hmoved.2

theorem Tracks.step {s t : FileCheckSummer} (h : Tracks s) (hstep : s.step = some t) : SameFile s t ∧ Follows t := by
  unfold FileCheckSummer.step at hstep
  rw [if_neg (Nat.not_le_of_lt h.inside)] at hstep
  split at hstep
  · rename_i hend
    obtain rfl := Option.some.inj hstep
    exact ⟨⟨rfl, rfl, rfl, rfl⟩, Or.inr (h.atEnd (hend.trans (Nat.add_le_add_left h.buffered.pos _)))⟩
  rename_i hend
  obtain ⟨hout, hdata⟩ := h.moved h.buffered.pos (Nat.lt_of_not_le hend)
  have hread := h.buffered.read
  dsimp only at hstep
  split at hstep
  · rename_i hlt
    obtain rfl := Option.some.inj hstep
    refine ⟨⟨rfl, rfl, rfl, rfl⟩, Or.inl ⟨⟨h.buffered.pos, h.buffered.size, hout, h.buffered.tail_le, ?_, h.buffered.read_le, hdata,
      ⟨h.buffered.hashed.first, h.buffered.hashed.full⟩⟩, ⟨h.tabled.windowtable, h.tabled.windowmask⟩, Nat.lt_of_not_le hend, hlt,
      ?_, h.more, h.slide⟩⟩
    · change s.readoffset + (s.outpointer + 1) = s.currentoffset + 1 + s.tailpointer
      omega
    · change s.inpointer + 1 = s.outpointer + 1 + s.blocksize
      have := h.inp
      omega
  · rename_i hge
    have hfull : s.outpointer + 1 = s.blocksize := by
      have := h.out_lt
      omega
    unfold moveBack window at hstep
    dsimp only at hstep
    rw [hfull] at hstep
    have hback := h.back (i := s.blocksize) (n := s.blocksize) (c := s.windowmask ^^^ crcSlideChar (s.windowmask ^^^ s.checksum)
      (s.buffer.getD s.inpointer 0) (s.buffer.getD s.outpointer 0) s.windowtable) h.buffered.pos (Nat.lt_of_not_le hend) hfull
      (by have := h.buffered.tail_le; omega) (by omega)
    have hfilled := fill_filled hback hstep
    refine ⟨⟨hfilled.same.diskfile, hfilled.same.blocksize, hfilled.same.windowtable, hfilled.same.windowmask⟩, Or.inl ?_⟩
    refine hfilled.tracks ⟨h.tabled.windowtable, h.tabled.windowmask⟩ (Nat.lt_of_not_le hend) h.buffered.pos
      (Nat.zero_add _).symm ?_
    have hsize := h.buffered.size
    have hslide := h.slide
    rw [hfull] at hslide
    have hlen : ((s.buffer.drop s.blocksize).take s.blocksize).length = s.blocksize := by
      rw [List.length_take, List.length_drop]
      omega
    have hfront : (poke s.buffer 0 ((s.buffer.drop s.blocksize).take s.blocksize)).take s.blocksize =
        (s.buffer.drop s.blocksize).take s.blocksize := by
      have htake := @take_poke s.buffer ((s.buffer.drop s.blocksize).take s.blocksize) 0 (Nat.zero_le _)
      rwa [hlen, Nat.zero_add, List.take_zero, List.nil_append] at htake
    have hkept : t.buffer.take s.blocksize = (s.buffer.drop s.blocksize).take s.blocksize := by
      rcases hfilled.kept with hsame | ⟨hlt, hkept⟩
      · rw [hsame]
        exact hfront
      · have htail : s.tailpointer - s.blocksize = s.blocksize := by
          have := h.more hlt
          omega
        change t.buffer.take (s.tailpointer - s.blocksize) =
          (poke s.buffer 0 ((s.buffer.drop s.blocksize).take s.blocksize)).take (s.tailpointer - s.blocksize) at hkept
        rw [htail] at hkept
        exact hkept.trans hfront
    have hwindow : t.window t.blocksize = (s.buffer.drop s.blocksize).take s.blocksize := by
      unfold window
      rw [hfilled.outpointer, hfilled.same.blocksize, List.drop_zero]
      exact hkept
    rw [hwindow, hfilled.checksum]
    exact hslide

theorem poke_nil {buffer : List UInt8} : poke buffer 0 [] = buffer := rfl

theorem Filled.computeChecksum {s t : FileCheckSummer} (h : Filled s t) (htabled : Tabled s)
    (hinside : s.currentoffset < s.filesize) (hout : s.outpointer = 0) (hinp : s.inpointer = s.blocksize) :
    Tracks t.computeChecksum := by
  have hsize : t.filesize = s.filesize := congrArg DiskFile.fileSize h.same.diskfile
  have hb := h.buffered
  refine ⟨⟨hb.pos, hb.size, hb.out_le, hb.tail_le, hb.read, hb.read_le, hb.data, ⟨hb.hashed.first, hb.hashed.full⟩⟩, ⟨?_, ?_⟩, ?_, ?_,
    ?_, h.more, ?_⟩
  · exact (h.same.windowtable.trans htabled.windowtable).trans (congrArg _ h.same.blocksize.symm)
  · exact (h.same.windowmask.trans htabled.windowmask).trans (congrArg _ h.same.blocksize.symm)
  · change t.currentoffset < t.filesize
    rwa [h.currentoffset, hsize]
  · change t.outpointer < t.blocksize
    rw [h.outpointer, hout]
    exact hb.pos
  · change t.inpointer = t.outpointer + t.blocksize
    rw [h.inpointer, h.outpointer, hout, hinp, Nat.zero_add, h.same.blocksize]
  · change ~~~0 ^^^ crcUpdateBlock (~~~0) (t.buffer.take t.blocksize) = crcOf ((t.buffer.drop t.outpointer).take t.blocksize)
    rw [h.outpointer, hout, List.drop_zero]
    rfl

theorem Tracks.jump {s t : FileCheckSummer} {distance : Nat} (h : Tracks s) (hjump : s.jump distance = some t) :
    SameFile s t ∧ Follows t := by
  unfold FileCheckSummer.jump at hjump
  rw [if_neg (Nat.not_le_of_lt h.inside)] at hjump
  split at hjump
  · cases hjump
  split at hjump
  · exact h.step hjump
  dsimp only at hjump
  split at hjump
  · rename_i hend
    obtain rfl := Option.some.inj hjump
    exact ⟨⟨rfl, rfl, rfl, rfl⟩, Or.inr (h.atEnd (hend.trans (Nat.add_le_add_left (Nat.min_le_right _ _) _)))⟩
  rename_i hend
  have hmin : min distance s.blocksize ≤ s.blocksize := Nat.min_le_right _ _
  generalize min distance s.blocksize = distance at *
  have hinside := Nat.lt_of_not_le hend
  have hmoved := h.moved hmin hinside
  have hbuffer : (if 0 < s.tailpointer - (s.outpointer + distance) then
      poke s.buffer 0 ((s.buffer.drop (s.outpointer + distance)).take (s.tailpointer - (s.outpointer + distance))) else s.buffer) =
      poke s.buffer 0 ((s.buffer.drop (s.outpointer + distance)).take (s.tailpointer - (s.outpointer + distance))) := by
    split
    · rfl
    · rename_i hnone
      rw [Nat.eq_zero_of_not_pos hnone, List.take_zero, poke_nil]
  unfold keep window at hjump
  dsimp only at hjump
  rw [hbuffer] at hjump
  have hback := h.back (i := s.blocksize) (c := s.checksum) hmin hinside rfl (Nat.le_refl _)
    (by have := h.buffered.tail_le; omega)
  obtain ⟨u, hfill, hu⟩ := Option.bind_eq_some_iff.mp hjump
  obtain rfl := Option.some.inj hu
  have hfilled := fill_filled hback hfill
  exact ⟨⟨hfilled.same.diskfile, hfilled.same.blocksize, hfilled.same.windowtable, hfilled.same.windowmask⟩,
    Or.inl (hfilled.computeChecksum ⟨h.tabled.windowtable, h.tabled.windowmask⟩ hinside rfl rfl)⟩

/-- The checksummer of a file, as it is made. -/
def new (diskfile : DiskFile) (blocksize : Nat) : FileCheckSummer :=
  { diskfile, blocksize, windowtable := generateWindowTable blocksize, windowmask := computeWindowMask blocksize }

theorem start_follows {diskfile : DiskFile} {blocksize : Nat} {t : FileCheckSummer} (hpos : 0 < blocksize)
    (hstart : (new diskfile blocksize).start = some t) : SameFile (new diskfile blocksize) t ∧ Follows t := by
  obtain ⟨u, hfill, hu⟩ := Option.bind_eq_some_iff.mp hstart
  obtain rfl := Option.some.inj hu
  have hbuffered : Buffered { new diskfile blocksize with
      currentoffset := 0, readoffset := 0, tailpointer := 0, outpointer := 0, inpointer := blocksize } :=
    ⟨hpos, List.length_replicate, Nat.le_refl _, Nat.zero_le _, rfl, Nat.zero_le _, rfl,
      ⟨MD5Context.new_eq, fun hfull => absurd (show 16384 ≤ 0 from hfull) (by decide)⟩⟩
  have hfilled := fill_filled hbuffered hfill
  refine ⟨⟨hfilled.same.diskfile, hfilled.same.blocksize, hfilled.same.windowtable, hfilled.same.windowmask⟩, ?_⟩
  by_cases hempty : 0 < diskfile.fileSize
  · exact Or.inl (hfilled.computeChecksum ⟨rfl, rfl⟩ hempty rfl rfl)
  · have hsize : u.filesize = 0 := (congrArg DiskFile.fileSize hfilled.same.diskfile).trans (Nat.eq_zero_of_not_pos hempty)
    have hread : u.readoffset = u.filesize := by
      have := hfilled.buffered.read_le
      omega
    exact Or.inr ⟨⟨hfilled.buffered.hashed.first, hfilled.buffered.hashed.full⟩,
      ⟨hfilled.same.windowtable.trans (congrArg generateWindowTable hfilled.same.blocksize.symm),
        hfilled.same.windowmask.trans (congrArg computeWindowMask hfilled.same.blocksize.symm)⟩, hread,
      hfilled.currentoffset.trans hsize.symm⟩

/-- Where `Start` and then calls of `Step` and `Jump` that return true lead to. -/
inductive Reached (diskfile : DiskFile) (blocksize : Nat) : FileCheckSummer → Prop
  | start {t} (h : (new diskfile blocksize).start = some t) : Reached diskfile blocksize t
  | step {s t} (hs : Reached diskfile blocksize s) (h : s.step = some t) : Reached diskfile blocksize t
  | jump {s t distance} (hs : Reached diskfile blocksize s) (h : s.jump distance = some t) : Reached diskfile blocksize t

theorem SameFile.trans {s t u : FileCheckSummer} (h : SameFile s t) (h' : SameFile t u) : SameFile s u :=
  ⟨h'.diskfile.trans h.diskfile, h'.blocksize.trans h.blocksize, h'.windowtable.trans h.windowtable,
    h'.windowmask.trans h.windowmask⟩

theorem Ended.step {s t : FileCheckSummer} (h : Ended s) : s.step ≠ some t := by
  unfold FileCheckSummer.step
  rw [if_pos h.offset.ge]
  exact nofun

theorem Ended.jump {s t : FileCheckSummer} {distance : Nat} (h : Ended s) : s.jump distance ≠ some t := by
  unfold FileCheckSummer.jump
  rw [if_pos h.offset.ge]
  exact nofun

theorem Reached.follows {diskfile : DiskFile} {blocksize : Nat} {s : FileCheckSummer} (hpos : 0 < blocksize)
    (h : Reached diskfile blocksize s) : SameFile (new diskfile blocksize) s ∧ Follows s := by
  induction h with
  | start hstart => exact start_follows hpos hstart
  | step _ hstep ih =>
    rcases ih.2 with htracks | hended
    · exact ⟨ih.1.trans (htracks.step hstep).1, (htracks.step hstep).2⟩
    · exact absurd hstep hended.step
  | jump _ hjump ih =>
    rcases ih.2 with htracks | hended
    · exact ⟨ih.1.trans (htracks.jump hjump).1, (htracks.jump hjump).2⟩
    · exact absurd hjump hended.jump

/-! ### What the checksummer says -/

/-- The data of the file from the offset on is at the front of the window, as far as the file goes. -/
theorem Tracks.window_take {s : FileCheckSummer} (h : Tracks s) {length : Nat} (hle : length ≤ s.blockLength) :
    s.window length = (s.diskfile.contents.drop s.currentoffset).take length := by
  have hread := h.buffered.read
  have hahead := h.ahead
  have hdata := congrArg (List.take length) h.buffered.data
  unfold blockLength at hle
  rw [List.drop_take, List.drop_take, List.take_take, List.take_take, Nat.min_eq_left (by omega), Nat.min_eq_left (by omega)]
    at hdata
  exact hdata

theorem of_window (w : List UInt8) : MD5Context.update {} w = .of w := by
  rw [MD5Context.new_eq, MD5Context.of_update, List.nil_append]

theorem hash_eq (s : FileCheckSummer) : s.hash = md5Of (s.window s.blocksize) := by
  unfold hash
  rw [of_window, MD5Context.of_final]

theorem shortChecksum_eq (s : FileCheckSummer) (length : Nat) :
    s.shortChecksum length = crcOf (s.window length ++ List.replicate (s.blocksize - length) 0) := by
  unfold shortChecksum crcOf
  dsimp only
  rw [crcUpdateBlock_append, ← crcUpdateZeros_eq, UInt32.xor_comm]
  split
  · rfl
  · rename_i hle
    rw [Nat.sub_eq_zero_of_le (Nat.le_of_not_lt hle)]
    rfl

theorem shortHash_eq (s : FileCheckSummer) (length : Nat) :
    s.shortHash length = md5Of (s.window length ++ List.replicate (s.blocksize - length) 0) := by
  unfold shortHash
  dsimp only
  rw [of_window]
  split
  · rw [MD5Context.of_updateZeros, MD5Context.of_final]
  · rename_i hle
    rw [Nat.sub_eq_zero_of_le (Nat.le_of_not_lt hle), List.replicate_zero, List.append_nil, MD5Context.of_final]

theorem Ended.getFileHashes {s : FileCheckSummer} (h : Ended s) :
    s.getFileHashes = (md5Of s.diskfile.contents, md5Of (s.diskfile.contents.take 16384)) := by
  have hfirst := h.hashed.first
  have hfull := h.hashed.full
  rw [h.read] at hfirst hfull
  have hall : s.diskfile.contents.take s.filesize = s.diskfile.contents := List.take_length
  unfold FileCheckSummer.getFileHashes
  by_cases hlt : s.filesize < 16384
  · have hshort : s.diskfile.contents.take 16384 = s.diskfile.contents := List.take_of_length_le (Nat.le_of_lt hlt)
    rw [if_pos hlt, hfirst, Nat.min_eq_left (Nat.le_of_lt hlt), hall, hshort, MD5Context.of_final]
  · rw [if_neg hlt, hfirst, Nat.min_eq_right (Nat.le_of_not_lt hlt), hfull (Nat.le_of_not_lt hlt), hall, MD5Context.of_final,
      MD5Context.of_final]

end FileCheckSummer

open FileCheckSummer in
/-- However the window was moved: the checksum is that of the window; where the window is within the file, checksum and hash are
    those of the block of the file, as are the short ones, with the zeros they are filled up with, as far as the file goes; and
    when the file has been gone through, the file's hashes are right. -/
theorem checksummer_follows_file {diskfile : DiskFile} {blocksize : Nat} {s : FileCheckSummer} (hpos : 0 < blocksize)
    (h : Reached diskfile blocksize s) :
    (s.currentoffset < diskfile.fileSize →
      s.checksum = crcOf (s.window blocksize) ∧
      (s.shortBlock = false →
        s.checksum = crcOf ((diskfile.contents.drop s.currentoffset).take blocksize) ∧
        s.hash = md5Of ((diskfile.contents.drop s.currentoffset).take blocksize)) ∧
      ∀ length ≤ s.blockLength,
        s.shortChecksum length = crcOf ((diskfile.contents.drop s.currentoffset).take length ++
          List.replicate (blocksize - length) 0) ∧
        s.shortHash length = md5Of ((diskfile.contents.drop s.currentoffset).take length ++
          List.replicate (blocksize - length) 0)) ∧
    (diskfile.fileSize ≤ s.currentoffset →
      s.getFileHashes = (md5Of diskfile.contents, md5Of (diskfile.contents.take 16384))) := by
  obtain ⟨hsame, hfollows⟩ := h.follows hpos
  have hfile : s.diskfile = diskfile := hsame.diskfile
  have hsize : s.blocksize = blocksize := hsame.blocksize
  subst hfile hsize
  rcases hfollows with htracks | hended
  · refine ⟨fun _ => ⟨htracks.checksum, fun hshort => ?_, fun length hle => ?_⟩, fun hend => ?_⟩
    · have hblock : s.blocksize ≤ s.blockLength := by simpa [shortBlock] using hshort
      rw [hash_eq, htracks.checksum, htracks.window_take hblock]
      exact ⟨rfl, rfl⟩
    · rw [shortChecksum_eq, shortHash_eq, htracks.window_take hle]
      exact ⟨rfl, rfl⟩
    · exact absurd htracks.inside (Nat.not_lt_of_le hend)
  · exact ⟨fun hlt => absurd hlt (Nat.not_lt_of_le hended.offset.ge), fun _ => hended.getFileHashes⟩

open FileCheckSummer in
theorem checksummer_follows_file_sample : ∃ s, Reached { object := 0, contents := [1, 2, 3, 4, 5] } 2 s ∧ s.currentoffset = 1 ∧
    s.checksum = crcOf [2, 3] := by
  have hrun : ∃ s, (new { object := 0, contents := [1, 2, 3, 4, 5] } 2).start = some s ∧
      ∃ t, s.step = some t ∧ t.currentoffset = 1 ∧ t.shortBlock = false := ⟨_, rfl, _, rfl, rfl, rfl⟩
  obtain ⟨s, hstart, t, hstep, hoffset, hshort⟩ := hrun
  have hreached := Reached.step (.start hstart) hstep
  refine ⟨t, hreached, hoffset, ?_⟩
  have hblock := ((checksummer_follows_file (by decide) hreached).1 (by rw [hoffset]; decide)).2.1 hshort
  rw [hblock.1, hoffset]
  rfl

end Nget

import Nget.Lib.Resync
import Nget.Par2Load
import Nget.Theorems.FileCheckSummer

/-! The search of `LoadPacketsFromFile` finds the packets that a file has: whatever the buffers are that it goes through, it takes
    each packet that does not begin in another one which it has taken, in their order. -/

namespace Nget.Par2
open Resync

/-! ### Records -/

theorem field_take {offset length n : Nat} (bytes : List UInt8) (h : offset + length ≤ n) :
    field offset length (bytes.take n) = field offset length bytes := by
  unfold field
  rw [List.drop_take, List.take_take, Nat.min_eq_left (Nat.le_sub_of_add_le' h)]

theorem field_drop (offset length n : Nat) (bytes : List UInt8) :
    field offset length (bytes.drop n) = field (n + offset) length bytes := by
  unfold field
  rw [List.drop_drop]

/-- Neighbouring fields are one. -/
theorem field_append_field (offset m n : Nat) (bytes : List UInt8) :
    field offset m bytes ++ field (offset + m) n bytes = field offset (m + n) bytes := by
  unfold field
  rw [← List.drop_drop, List.take_add]

theorem littleEndian_lt (bytes : List UInt8) : littleEndian bytes < 256 ^ bytes.length := by
  induction bytes with
  | nil => exact Nat.one_pos
  | cons byte bytes ih =>
    have hbyte : byte.toNat < 256 := byte.toNat_lt
    have hcons : littleEndian (byte :: bytes) = byte.toNat + 256 * littleEndian bytes := rfl
    rw [hcons, List.length_cons, Nat.pow_succ]
    omega

namespace PacketHeader

theorem ofBytes_take {n : Nat} (bytes : List UInt8) (h : size ≤ n) : ofBytes (bytes.take n) = ofBytes bytes := by
  unfold size at h
  unfold ofBytes
  rw [field_take _ (by omega), field_take _ (by omega), field_take _ (by omega), field_take _ (by omega),
    field_take _ (by omega)]

end PacketHeader

/-- The header that stands at an offset. -/
def headerAt (contents : List UInt8) (offset : Nat) : PacketHeader := .ofBytes (contents.drop offset)

theorem ofBytes_field (contents : List UInt8) (offset : Nat) :
    PacketHeader.ofBytes (field offset PacketHeader.size contents) = headerAt contents offset :=
  PacketHeader.ofBytes_take _ (Nat.le_refl _)

section
variable {contents : List UInt8} {offset want current : Nat}

/-- In a buffer, the magic is seen where the file has it. -/
theorem field_field_magic (h : current + PacketHeader.size ≤ want) :
    field current 8 (field offset want contents) = (headerAt contents (offset + current)).magic := by
  have hmagic : (headerAt contents (offset + current)).magic = field (offset + current) 8 contents := field_drop _ _ _ _
  unfold PacketHeader.size at h
  rw [hmagic, ← field_drop]
  exact field_take _ (by omega)

theorem ofBytes_drop_field (h : current + PacketHeader.size ≤ want) :
    PacketHeader.ofBytes ((field offset want contents).drop current) = headerAt contents (offset + current) := by
  unfold field headerAt
  rw [List.drop_take, List.drop_drop]
  exact PacketHeader.ofBytes_take _ (by omega)

end

theorem headerAt_length_lt (contents : List UInt8) (offset : Nat) : (headerAt contents offset).length < 2 ^ 64 := by
  refine (littleEndian_lt _).trans_le ?_
  have hle : (field 8 8 (contents.drop offset)).length ≤ 8 := List.length_take_le 8 _
  exact Nat.pow_le_pow_right (by decide) hle

/-! ### Packets of a file -/

/-- A packet stands at the offset: it has the magic, a length that is possible there, and the hash of what it holds. -/
structure Intact (contents : List UInt8) (offset : Nat) : Prop where
  magic : (headerAt contents offset).magic = packetMagic
  size : PacketHeader.size ≤ (headerAt contents offset).length
  aligned : (headerAt contents offset).length % 4 = 0
  inside : offset + (headerAt contents offset).length ≤ contents.length
  hash : md5Of (field (offset + 32) ((headerAt contents offset).length - 32) contents) = (headerAt contents offset).hash

theorem intact_iff {contents : List UInt8} {offset : Nat} :
    Intact contents offset ↔ (headerAt contents offset).magic = packetMagic ∧
      PacketHeader.size ≤ (headerAt contents offset).length ∧ (headerAt contents offset).length % 4 = 0 ∧
      offset + (headerAt contents offset).length ≤ contents.length ∧
      md5Of (field (offset + 32) ((headerAt contents offset).length - 32) contents) = (headerAt contents offset).hash :=
  ⟨fun h => ⟨h.magic, h.size, h.aligned, h.inside, h.hash⟩, fun h => ⟨h.1, h.2.1, h.2.2.1, h.2.2.2.1, h.2.2.2.2⟩⟩

instance (contents : List UInt8) (offset : Nat) : Decidable (Intact contents offset) := decidable_of_iff' _ intact_iff

/-- The length of the packet at an offset. -/
def packetLength (contents : List UInt8) (offset : Nat) : Option Nat :=
  if Intact contents offset then some (headerAt contents offset).length else none

theorem packetLength_eq_some {contents : List UInt8} {offset length : Nat} :
    packetLength contents offset = some length ↔ Intact contents offset ∧ (headerAt contents offset).length = length := by
  unfold packetLength
  split
  · rename_i h
    exact ⟨fun heq => ⟨h, Option.some.inj heq⟩, fun heq => congrArg some heq.2⟩
  · rename_i h
    exact ⟨nofun, fun heq => absurd heq.1 h⟩

theorem packetLength_eq_none {contents : List UInt8} {offset : Nat} :
    packetLength contents offset = none ↔ ¬Intact contents offset := by
  unfold packetLength
  split
  · rename_i h
    exact ⟨nofun, fun hn => absurd h hn⟩
  · rename_i h
    exact ⟨fun _ => h, fun _ => rfl⟩

theorem lt_of_packetLength {contents : List UInt8} {offset length : Nat} (h : packetLength contents offset = some length) :
    offset < contents.length := by
  obtain ⟨hintact, -⟩ := packetLength_eq_some.mp h
  have hsize := hintact.size
  have hinside := hintact.inside
  unfold PacketHeader.size at hsize
  omega

/-- A header whose length is so large that the end of its packet wraps around, with the hash of the header alone: the loop goes
    back in the file. -/
structure Forged (contents : List UInt8) (offset : Nat) : Prop where
  magic : (headerAt contents offset).magic = packetMagic
  wraps : 2 ^ 64 ≤ offset + (headerAt contents offset).length
  aligned : (headerAt contents offset).length % 4 = 0
  hash : md5Of ((headerAt contents offset).setid ++ (headerAt contents offset).type) = (headerAt contents offset).hash

/-- There is nothing forged if no length in the file is so large. -/
theorem not_forged {contents : List UInt8} (h : ∀ p < contents.length, (headerAt contents p).magic = packetMagic →
    p + (headerAt contents p).length < 2 ^ 64) (offset : Nat) : ¬Forged contents offset := by
  intro hforged
  have hmagic := hforged.magic
  rcases Nat.lt_or_ge offset contents.length with hlt | hge
  · exact absurd hforged.wraps (Nat.not_le.mpr (h offset hlt hmagic))
  · have hend : (headerAt contents offset).magic = [] := by
      unfold headerAt
      rw [List.drop_of_length_le hge]
      rfl
    rw [hend] at hmagic
    cases hmagic

/-- The plain scan: a packet where one stands, and else one byte further. -/
def scanPackets (contents : List UInt8) : Nat → Nat → List Nat
  | 0, _ => []
  | turns + 1, offset =>
    match packetLength contents offset with
    | some length => offset :: scanPackets contents turns (offset + length)
    | none => scanPackets contents turns (offset + 1)

theorem units_scanPackets (contents : List UInt8) (turns offset : Nat) (hturns : contents.length ≤ offset + turns) :
    Units (packetLength contents) contents.length offset (scanPackets contents turns offset) := by
  induction turns generalizing offset with
  | zero => exact .stop hturns
  | succ turns ih =>
    rw [scanPackets]
    cases hunit : packetLength contents offset with
    | none => exact .skip hunit (ih (offset + 1) (by omega))
    | some length =>
      obtain ⟨hintact, rfl⟩ := packetLength_eq_some.mp hunit
      have hsize : 64 ≤ (headerAt contents offset).length := hintact.size
      exact .take hunit (ih _ (by omega))

/-- Where a file has packets that do not begin in others. -/
def packetsIn (contents : List UInt8) : List Nat := scanPackets contents contents.length 0

theorem units_packetsIn (contents : List UInt8) :
    Units (packetLength contents) contents.length 0 (packetsIn contents) :=
  units_scanPackets contents contents.length 0 (Nat.le_add_left _ _)

/-! ### Finding headers -/

/-- The file can be opened and read. -/
structure Openable (diskfile : DiskFile) : Prop where
  size : diskfile.fileSize ≤ 0x7fffffff
  readable : ∀ offset length, offset + length ≤ diskfile.fileSize → diskfile.readable offset length = true

/-- It has no forged header, too. -/
structure Loadable (diskfile : DiskFile) : Prop extends Openable diskfile where
  genuine : ∀ offset, ¬Forged diskfile.contents offset

theorem Openable.read {diskfile : DiskFile} (h : Openable diskfile) {offset length : Nat}
    (hle : offset + length ≤ diskfile.fileSize) :
      diskfile.read offset length = some (field offset length diskfile.contents) := by
  unfold DiskFile.read
  rw [if_pos (h.readable offset length hle)]
  rfl

/-- From an offset on, this is the first header with the magic, or there is none. -/
def FirstHeader (contents : List UInt8) (offset : Nat) : Option (Nat × PacketHeader) → Prop
  | none => ∀ r, offset ≤ r → r + PacketHeader.size ≤ contents.length → (headerAt contents r).magic ≠ packetMagic
  | some found => offset ≤ found.1 ∧ found.1 + PacketHeader.size ≤ contents.length ∧ found.2 = headerAt contents found.1 ∧
      found.2.magic = packetMagic ∧ ∀ r, offset ≤ r → r < found.1 → (headerAt contents r).magic ≠ packetMagic

/-- The search goes on further on. -/
theorem FirstHeader.of_later {contents : List UInt8} {offset later : Nat} {found : Option (Nat × PacketHeader)}
    (h : FirstHeader contents later found) (hle : offset ≤ later)
    (hnone : ∀ r, offset ≤ r → r < later → (headerAt contents r).magic ≠ packetMagic) :
    FirstHeader contents offset found := by
  cases found with
  | none =>
    intro r hr hsize
    rcases Nat.lt_or_ge r later with hlt | hge
    · exact hnone r hr hlt
    · exact h r hge hsize
  | some found =>
    obtain ⟨hlater, hsize, heq, hmagic, hfirst⟩ := h
    refine ⟨hle.trans hlater, hsize, heq, hmagic, fun r hr hlt => ?_⟩
    rcases Nat.lt_or_ge r later with hlt' | hge
    · exact hnone r hr hlt'
    · exact hfirst r hge hlt

theorem scanBuffer_cases (limit : Nat) (buffer : List UInt8) :
    (scanBuffer limit buffer = limit + 1 ∨
      scanBuffer limit buffer ≤ limit ∧ field (scanBuffer limit buffer) 8 buffer = packetMagic) ∧
    ∀ before, before < scanBuffer limit buffer → field before 8 buffer ≠ packetMagic := by
  unfold scanBuffer
  cases hfind : (List.range (limit + 1)).find? fun current => field current 8 buffer = packetMagic with
  | none =>
    refine ⟨.inl rfl, fun before hlt => ?_⟩
    have hne := List.find?_range_eq_none.mp hfind before hlt
    rw [Bool.not_eq_true', decide_eq_false_iff_not] at hne
    exact hne
  | some current =>
    obtain ⟨hmagic, hmem, hbefore⟩ := List.find?_range_eq_some.mp hfind
    refine ⟨.inr ⟨Nat.le_of_lt_succ (List.mem_range.mp hmem), of_decide_eq_true hmagic⟩, fun before hlt => ?_⟩
    have hne := hbefore before hlt
    rw [Bool.not_eq_true', decide_eq_false_iff_not] at hne
    exact hne

theorem searchMagic_first {diskfile : DiskFile} (h : Openable diskfile) {buffersize : Nat}
    (hbuffer : PacketHeader.size ≤ buffersize) (reads offset : Nat)
    (hreads : diskfile.fileSize < offset + PacketHeader.size + reads) :
    FirstHeader diskfile.contents offset (searchMagic diskfile buffersize reads offset) := by
  induction reads generalizing offset with
  | zero =>
    rw [searchMagic]
    intro r hr hsize
    unfold DiskFile.fileSize at hreads
    omega
  | succ reads ih =>
    unfold searchMagic
    split
    case isFalse hend =>
      intro r hr hsize
      unfold DiskFile.fileSize at hend
      omega
    case isTrue hin =>
      dsimp only
      have hwant : offset + min buffersize (diskfile.fileSize - offset) ≤ diskfile.fileSize := by omega
      have hlimit : PacketHeader.size ≤ min buffersize (diskfile.fileSize - offset) := by omega
      generalize min buffersize (diskfile.fileSize - offset) = want at hwant hlimit
      rw [h.read hwant]
      dsimp only
      obtain ⟨hstops, hbefore⟩ := scanBuffer_cases (want - PacketHeader.size) (field offset want diskfile.contents)
      generalize scanBuffer (want - PacketHeader.size) (field offset want diskfile.contents) = current at hstops hbefore
      have hnone : ∀ r, offset ≤ r → r < offset + current → r ≤ offset + (want - PacketHeader.size) →
          (headerAt diskfile.contents r).magic ≠ packetMagic := by
        intro r hr hlt hlast
        obtain ⟨before, rfl⟩ := Nat.exists_eq_add_of_le hr
        rw [← field_field_magic (by omega : before + PacketHeader.size ≤ want)]
        exact hbefore before (by omega)
      rcases hstops with rfl | ⟨hcurrent, hmagic⟩
      · rw [if_neg (Nat.not_succ_le_self _)]
        exact (ih _ (by omega)).of_later (Nat.le_add_right _ _) fun r hr hlt => hnone r hr hlt (by omega)
      · have hroom : current + PacketHeader.size ≤ want := by omega
        have hheader := @ofBytes_drop_field diskfile.contents offset want current hroom
        rw [if_pos hcurrent]
        refine ⟨Nat.le_add_right _ _, ?_, hheader, ?_, fun r hr hlt => hnone r hr hlt (by omega)⟩
        · change offset + current + PacketHeader.size ≤ diskfile.fileSize
          omega
        · rw [hheader, ← field_field_magic hroom]
          exact hmagic

theorem nextHeader_of_magic {diskfile : DiskFile} (h : Openable diskfile) {buffersize offset : Nat}
    (hin : offset + PacketHeader.size ≤ diskfile.fileSize) (hmagic : (headerAt diskfile.contents offset).magic = packetMagic) :
    nextHeader diskfile buffersize offset = some (offset, headerAt diskfile.contents offset) := by
  unfold nextHeader
  rw [h.read hin, Option.bind_some, ofBytes_field]
  exact if_pos hmagic

theorem nextHeader_first {diskfile : DiskFile} (h : Openable diskfile) {buffersize : Nat}
    (hbuffer : PacketHeader.size ≤ buffersize) {offset : Nat} (hin : offset + PacketHeader.size ≤ diskfile.fileSize) :
    FirstHeader diskfile.contents offset (nextHeader diskfile buffersize offset) := by
  unfold nextHeader
  rw [h.read hin, Option.bind_some, ofBytes_field]
  dsimp only
  split
  · rename_i hmagic
    exact ⟨Nat.le_refl _, hin, rfl, hmagic, fun r hr hlt => absurd hlt (Nat.not_lt.mpr hr)⟩
  · rename_i hmagic
    refine (searchMagic_first h hbuffer _ _ (by omega)).of_later (Nat.le_succ _) fun r hr hlt => ?_
    obtain rfl : r = offset := by omega
    exact hmagic

/-! ### Checking packets -/

theorem field_zero (offset : Nat) (bytes : List UInt8) : field offset 0 bytes = [] := List.take_zero

theorem hashPacket_eq {diskfile : DiskFile} (h : Openable diskfile) {buffersize limit : Nat} (hbuffer : 0 < buffersize)
    (hlimit : limit ≤ diskfile.fileSize) (reads current : Nat) (data : List UInt8) (hle : current ≤ limit)
    (hreads : limit ≤ current + reads) :
    hashPacket diskfile buffersize limit reads current (.of data) =
      some (.of (data ++ field current (limit - current) diskfile.contents)) := by
  induction reads generalizing current data with
  | zero =>
    obtain rfl : current = limit := by omega
    rw [hashPacket, Nat.sub_self, field_zero, List.append_nil]
  | succ reads ih =>
    rw [hashPacket]
    split
    case isFalse hend =>
      obtain rfl : current = limit := by omega
      rw [Nat.sub_self, field_zero, List.append_nil]
    case isTrue hlt =>
      dsimp only
      have hwant : 0 < min buffersize (limit - current) := by omega
      have hmost : min buffersize (limit - current) ≤ limit - current := Nat.min_le_right _ _
      generalize min buffersize (limit - current) = want at hwant hmost
      have hsum : want + (limit - (current + want)) = limit - current := by omega
      rw [h.read (by omega)]
      dsimp only
      rw [MD5Context.of_update, ih _ _ (by omega) (by omega), List.append_assoc, field_append_field, hsum]

theorem hashPacket_of_le {diskfile : DiskFile} {buffersize limit reads current : Nat} {context : MD5Context}
    (hle : limit ≤ current) : hashPacket diskfile buffersize limit reads current context = some context := by
  cases reads with
  | zero => rw [hashPacket]
  | succ reads => rw [hashPacket, if_neg (Nat.not_lt.mpr hle)]

/-- What the hash of a packet is of. -/
theorem hashed_eq (contents : List UInt8) {offset length : Nat} (hlength : PacketHeader.size ≤ length) :
    (headerAt contents offset).setid ++ (headerAt contents offset).type ++
        field (offset + PacketHeader.size) (length - PacketHeader.size) contents =
      field (offset + 32) (length - 32) contents := by
  have hsetid : (headerAt contents offset).setid = field (offset + 32) 16 contents := field_drop _ _ _ _
  have htype : (headerAt contents offset).type = field (offset + 32 + 16) 16 contents := field_drop _ _ _ _
  have hsum : 16 + 16 + (length - PacketHeader.size) = length - 32 := by
    unfold PacketHeader.size at *
    omega
  rw [hsetid, htype, field_append_field, ← hsum]
  exact field_append_field (offset + 32) (16 + 16) (length - PacketHeader.size) contents

/-- A packet whose end wraps around has nothing but its header hashed. -/
theorem forged_of_checkPacket {diskfile : DiskFile} {buffersize offset : Nat}
    (hmagic : (headerAt diskfile.contents offset).magic = packetMagic)
    (hge : 2 ^ 64 ≤ offset + (headerAt diskfile.contents offset).length)
    (hcheck : checkPacket diskfile buffersize offset (headerAt diskfile.contents offset) = true) :
    Forged diskfile.contents offset := by
  have hlength := headerAt_length_lt diskfile.contents offset
  have hstop : (headerAt diskfile.contents offset).stop offset ≤ offset + PacketHeader.size := by
    unfold PacketHeader.stop
    omega
  unfold checkPacket at hcheck
  split at hcheck
  · cases hcheck
  · rename_i hgood
    push Not at hgood
    dsimp only at hcheck
    rw [hashPacket_of_le hstop, MD5Context.new_eq, MD5Context.of_update, List.nil_append] at hcheck
    dsimp only at hcheck
    rw [MD5Context.of_final, decide_eq_true_iff] at hcheck
    exact ⟨hmagic, hge, hgood.2.1, hcheck⟩

theorem checkPacket_iff {diskfile : DiskFile} (h : Openable diskfile) {buffersize offset : Nat} (hbuffer : 0 < buffersize)
    (hgenuine : ¬Forged diskfile.contents offset)
    (hmagic : (headerAt diskfile.contents offset).magic = packetMagic) :
    checkPacket diskfile buffersize offset (headerAt diskfile.contents offset) = true ↔ Intact diskfile.contents offset := by
  have hsize := h.size
  rw [intact_iff]
  rcases Nat.lt_or_ge (offset + (headerAt diskfile.contents offset).length) (2 ^ 64) with hlt | hge
  · have hstop : (headerAt diskfile.contents offset).stop offset = offset + (headerAt diskfile.contents offset).length :=
      Nat.mod_eq_of_lt hlt
    unfold checkPacket
    rw [hstop]
    split
    · rename_i hbad
      refine ⟨nofun, fun hgood => ?_⟩
      obtain ⟨-, hleast, haligned, hinside, -⟩ := hgood
      change offset + (headerAt diskfile.contents offset).length ≤ diskfile.fileSize at hinside
      omega
    · rename_i hgood
      push Not at hgood
      obtain ⟨hleast, haligned, hinside⟩ := hgood
      dsimp only
      rw [MD5Context.new_eq, MD5Context.of_update, List.nil_append,
        hashPacket_eq h hbuffer hinside _ _ _ (Nat.add_le_add_left hleast _) (by omega), Nat.add_sub_add_left,
        hashed_eq _ hleast]
      dsimp only
      rw [MD5Context.of_final, decide_eq_true_iff]
      exact ⟨fun hhash => ⟨hmagic, hleast, haligned, hinside, hhash⟩, fun hall => hall.2.2.2.2⟩
  · refine ⟨fun hcheck => absurd (forged_of_checkPacket hmagic hge hcheck) hgenuine, fun hall => ?_⟩
    have hinside : offset + (headerAt diskfile.contents offset).length ≤ diskfile.fileSize := hall.2.2.2.1
    omega

/-! ### The loop -/

/-- The packet at an offset is used, and counted if it is. -/
def takePacket (diskfile : DiskFile) (x : Loader × Nat) (offset : Nat) : Loader × Nat :=
  let used := x.1.usePacket diskfile offset (headerAt diskfile.contents offset)
  (used.1, if used.2 then x.2 + 1 else x.2)

theorem Intact.lt {contents : List UInt8} {offset : Nat} (h : Intact contents offset) :
    offset + PacketHeader.size ≤ contents.length := Nat.le_trans (Nat.add_le_add_left h.size _) h.inside

theorem Intact.stop {contents : List UInt8} {offset : Nat} (h : Intact contents offset) (hsize : contents.length ≤ 0x7fffffff) :
    (headerAt contents offset).stop offset = offset + (headerAt contents offset).length := by
  have hinside := h.inside
  exact Nat.mod_eq_of_lt (by omega)

theorem Intact.not_forged {contents : List UInt8} {offset : Nat} (h : Intact contents offset)
    (hsize : contents.length ≤ 0x7fffffff) : ¬Forged contents offset := by
  intro hforged
  have hinside := h.inside
  have hwraps := hforged.wraps
  omega

/-- A turn takes the intact packet that the search has found. -/
theorem loadLoop_take {diskfile : DiskFile} (h : Openable diskfile) {buffersize offset p : Nat} (hbuffer : 0 < buffersize)
    (hin : offset + PacketHeader.size ≤ diskfile.fileSize)
    (hnext : nextHeader diskfile buffersize offset = some (p, headerAt diskfile.contents p))
    (hintact : Intact diskfile.contents p) (turns : Nat) (x : Loader × Nat) :
    loadLoop diskfile buffersize (turns + 1) offset x =
      loadLoop diskfile buffersize turns (p + (headerAt diskfile.contents p).length) (takePacket diskfile x p) := by
  obtain ⟨s, n⟩ := x
  have hcheck := checkPacket_iff h hbuffer (hintact.not_forged h.size) hintact.magic
  rw [loadLoop, if_pos hin, hnext]
  dsimp only
  rw [if_pos (hcheck.mpr hintact), hintact.stop h.size]
  rfl

/-- The turns of the loop take the units, however the search goes through its buffers. -/
theorem loadLoop_units {diskfile : DiskFile} (h : Loadable diskfile) {buffersize : Nat}
    (hbuffer : PacketHeader.size ≤ diskfile.fileSize → PacketHeader.size ≤ buffersize) (turns : Nat) {offset : Nat}
    {ps : List Nat} (hps : Units (packetLength diskfile.contents) diskfile.fileSize offset ps)
    (hle : offset ≤ diskfile.fileSize)
    (hturns : diskfile.fileSize < offset + turns) (x : Loader × Nat) :
    loadLoop diskfile buffersize turns offset x = some (ps.foldl (takePacket diskfile) x) := by
  induction turns generalizing offset ps x with
  | zero => omega
  | succ turns ih =>
    by_cases hin : offset + PacketHeader.size ≤ diskfile.fileSize
    · have hroom : PacketHeader.size ≤ buffersize := hbuffer (by omega)
      have hpos : 0 < buffersize := Nat.lt_of_lt_of_le (by decide) hroom
      have hfirst := nextHeader_first h.toOpenable hroom hin
      cases hnext : nextHeader diskfile buffersize offset with
      | none =>
        rw [hnext] at hfirst
        rw [loadLoop, if_pos hin, hnext,
          hps.eq_nil fun q hq => packetLength_eq_none.mpr fun hintact => hfirst q hq hintact.lt hintact.magic]
        rfl
      | some found =>
        obtain ⟨p, header⟩ := found
        rw [hnext] at hfirst
        obtain ⟨hlater, hroomp, heq, hmagic, hbefore⟩ := hfirst
        dsimp only at hlater hroomp heq hmagic hbefore
        subst heq
        replace hps := hps.of_stretch hlater fun r hr hlt =>
          packetLength_eq_none.mpr fun hintact => hbefore r hr hlt hintact.magic
        have hplace : p < diskfile.fileSize := Nat.lt_of_lt_of_le (Nat.lt_add_of_pos_right (by decide)) hroomp
        by_cases hintact : Intact diskfile.contents p
        · obtain ⟨qs, rfl, hqs⟩ := hps.of_unit hplace (packetLength_eq_some.mpr ⟨hintact, rfl⟩)
          have hleast : 64 ≤ (headerAt diskfile.contents p).length := hintact.size
          rw [loadLoop_take h.toOpenable hpos hin hnext hintact, List.foldl_cons]
          exact ih hqs hintact.inside (by omega) _
        · have hcheck := checkPacket_iff h.toOpenable hpos (h.genuine p) hmagic
          rw [loadLoop, if_pos hin, hnext]
          dsimp only
          rw [if_neg fun hgood => hintact (hcheck.mp hgood)]
          exact ih (hps.of_none (packetLength_eq_none.mpr hintact)) hplace (by omega) x
    · rw [loadLoop, if_neg hin, hps.eq_nil fun q hq => packetLength_eq_none.mpr fun hintact => ?_]
      · rfl
      · have hlt : q + PacketHeader.size ≤ diskfile.fileSize := hintact.lt
        omega

theorem loadLoop_packetsIn {diskfile : DiskFile} (h : Loadable diskfile) {turns : Nat} (hturns : diskfile.fileSize < turns)
    (x : Loader × Nat) : loadLoop diskfile (min 1048576 diskfile.fileSize) turns 0 x =
      some ((packetsIn diskfile.contents).foldl (takePacket diskfile) x) :=
  loadLoop_units h (fun hsize => Nat.le_min.mpr ⟨by decide, hsize⟩) turns (units_packetsIn _) (Nat.zero_le _) (by omega) x

theorem load_takes_intact_packets {diskfile : DiskFile} (h : Loadable diskfile) :
    ∃ ps : List Nat, (ps.Pairwise fun p q => p + (headerAt diskfile.contents p).length ≤ q) ∧
      (∀ p ∈ ps, Intact diskfile.contents p) ∧
      (∀ p, Intact diskfile.contents p → ∃ q ∈ ps, q ≤ p ∧ p < q + (headerAt diskfile.contents q).length) ∧
      ∀ turns x, diskfile.fileSize < turns → loadLoop diskfile (min 1048576 diskfile.fileSize) turns 0 x =
        some (ps.foldl (takePacket diskfile) x) := by
  have hps := units_packetsIn diskfile.contents
  have hintact : ∀ p ∈ packetsIn diskfile.contents, Intact diskfile.contents p := by
    intro p hp
    obtain ⟨-, length, hlength⟩ := hps.mem hp
    exact (packetLength_eq_some.mp hlength).1
  refine ⟨_, ?_, hintact, fun p hp => ?_, fun turns x hturns => loadLoop_packetsIn h hturns x⟩
  · refine hps.disjoint.imp_of_mem fun hp _ hdisjoint => ?_
    exact hdisjoint _ (packetLength_eq_some.mpr ⟨hintact _ hp, rfl⟩)
  · obtain ⟨q, hq, length, hlength, hle, hlt⟩ :=
      hps.covers (fun q length hq => lt_of_packetLength hq) (Nat.zero_le p) (packetLength_eq_some.mpr ⟨hp, rfl⟩)
    obtain ⟨-, rfl⟩ := packetLength_eq_some.mp hlength
    exact ⟨q, hq, hle, hlt⟩

/-- A creator packet, with the fields that `FinishPacket` stores still blank. -/
def sampleCreator : List UInt8 :=
  packetMagic ++ [68, 0, 0, 0, 0, 0, 0, 0] ++ List.replicate 32 0 ++ creatorpacketType ++ [0x6e, 0x67, 0x65, 0x74]

def sampleSetid : List UInt8 := List.replicate 16 5

/-- The packet in a file with other data around it. -/
def sampleJunk : List UInt8 := 0x50 :: finishPacket sampleSetid sampleCreator ++ [0x41]

theorem sample_loadable : Loadable { object := 0, contents := sampleJunk } :=
  ⟨⟨by decide +kernel, fun _ _ _ => rfl⟩, not_forged (by decide +kernel)⟩

/-- Two packets, with other data before, between and behind them. -/
def samplePair : List UInt8 :=
  0x50 :: finishPacket sampleSetid sampleCreator ++ [0x41, 0x42] ++ finishPacket sampleSetid sampleCreator ++ [0x43]

theorem load_takes_intact_packets_sample : ∃ ps : List Nat,
    (ps.Pairwise fun p q => p + (headerAt samplePair p).length ≤ q) ∧ (∀ p ∈ ps, Intact samplePair p) ∧
      (∃ q ∈ ps, q ≤ 1 ∧ 1 < q + (headerAt samplePair q).length) ∧
      (∃ q ∈ ps, q ≤ 71 ∧ 71 < q + (headerAt samplePair q).length) ∧
      loadLoop { object := 0, contents := samplePair } (min 1048576 samplePair.length) 141 0 ({}, 0) =
        some (ps.foldl (takePacket { object := 0, contents := samplePair }) ({}, 0)) := by
  have hloadable : Loadable { object := 0, contents := samplePair } :=
    ⟨⟨by decide +kernel, fun _ _ _ => rfl⟩, not_forged (by decide +kernel)⟩
  obtain ⟨ps, hapart, hintact, hcovers, hload⟩ := load_takes_intact_packets hloadable
  exact ⟨ps, hapart, hintact, hcovers 1 (by decide +kernel), hcovers 71 (by decide +kernel), hload 141 _ (by decide +kernel)⟩

end Nget.Par2

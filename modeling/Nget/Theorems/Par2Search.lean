import Nget.ParFile
import Mathlib.Order.Bounds.Basic

/-! The search for a packet of a par2 file. The buffer of a round holds the bytes of the file from the round's place up to
    the place of the descriptor, seven of them kept from the round before, so every place is compared once; a packet
    that turns out bad leaves the descriptor after the buffer again. So the place that is found is the first one of a
    valid packet, however the file is cut. -/

namespace Nget

variable {cuts : Nat → Nat} {name : Text} {md5 : List UInt8 → List UInt8} {bytes : List UInt8} {f : Descriptor UInt8}

/-! ### Reads -/

theorem readfull_of_le {len : Nat} (h : len ≤ f.rest.length) :
    ∃ f', readfull cuts name len f = .ok (f.rest.take len, f') ∧ f'.bytes = f.bytes ∧ f'.pos = f.pos + len := by
  unfold readfull
  obtain ⟨hdata, hbytes, hpos⟩ := @Descriptor.readExactly_of_le _ cuts len len f le_rfl h
  generalize f.readExactly cuts len len = r at *
  obtain ⟨data, f'⟩ := r
  obtain rfl := hdata
  exact ⟨f', rfl, hbytes, hpos⟩

theorem readfull_of_lt {len : Nat} (h : f.rest.length < len) :
    readfull cuts name len f = .error ("readfull ".toList ++ name ++ ": unexpected EOF".toList) := by
  have hdata := @Descriptor.readExactly_of_lt _ cuts len len f h
  unfold readfull
  generalize f.readExactly cuts len len = r at *
  obtain ⟨data, f'⟩ := r
  obtain rfl := hdata
  rfl

theorem seekSet_of_lt {pos : Nat} (h : pos < 2 ^ 31) : seekSet name (Int32.ofNat pos) f = .ok (f.seek pos) := by
  have hpos : (Int32.ofNat pos).toInt = pos := Int32.toInt_ofNat_of_lt h
  have hneg : ¬Int32.ofNat pos < 0 := by
    rw [Int32.lt_iff_toInt_lt, hpos]
    exact not_lt.mpr (Int.natCast_nonneg pos)
  rw [seekSet, if_neg hneg, hpos, Int.toNat_natCast]

/-- The digest is of the packet as far as the file goes, and nothing is left of it where the file has it all. -/
theorem readPacket_spec : ∀ (rounds pktlen : Nat) (f : Descriptor UInt8), f.rest.length ≤ rounds →
    (readPacket cuts rounds pktlen f).1 = f.rest.take pktlen ∧
      (readPacket cuts rounds pktlen f).2.1 = pktlen - f.rest.length ∧
      (readPacket cuts rounds pktlen f).2.2.bytes = f.bytes
  | 0, pktlen, f, h => by
    have hnil := List.length_eq_zero_iff.mp (Nat.le_zero.mp h)
    simp [readPacket, hnil]
  | rounds + 1, pktlen, f, h => by
    unfold readPacket
    split
    · next hzero => simp [hzero]
    · next hne =>
      have hread := @Descriptor.read_gives _ cuts f (min 8192 pktlen)
      generalize f.read cuts (min 8192 pktlen) = r at hread ⊢
      obtain ⟨buffer, e⟩ := r
      have hlength := hread.rest_length
      obtain ⟨hbytes, -, happ, hle, hsome⟩ := hread
      dsimp only at *
      split
      · next hempty =>
        have hend := hsome (by omega) (List.isEmpty_iff.mp hempty)
        simp [hend, hbytes]
      · next hdata =>
        have hpos := List.length_pos_iff.mpr (by simpa using hdata : buffer ≠ [])
        obtain ⟨hmore, hleft, hbytes'⟩ := readPacket_spec rounds (pktlen - buffer.length) e (by omega)
        have htake : buffer.take pktlen = buffer := List.take_of_length_le (by omega)
        refine ⟨?_, hleft.trans (by omega), hbytes'.trans hbytes⟩
        dsimp only
        rw [hmore, happ, List.take_append, htake]

/-! ### Packets -/

/-- The length of the packet at a place, without its first 32 bytes. -/
def packetLength (bytes : List UInt8) (p : Nat) : Nat :=
  (UInt64.ofNat (leNat ((bytes.drop (p + 8)).take 8)) - 32).toNat

/-- A valid packet starts at the place. -/
structure ValidPacket (md5 : List UInt8 → List UInt8) (bytes : List UInt8) (p : Nat) : Prop where
  magic : (bytes.drop p).take 8 = par2Header
  header : p + 32 ≤ bytes.length
  available : p + 32 + packetLength bytes p ≤ bytes.length
  hash : md5 ((bytes.drop (p + 32)).take (packetLength bytes p)) = (bytes.drop (p + 16)).take 16

theorem checkPacket_of_le {p : Nat} (hfile : f.bytes = bytes) (hp : p + 8 < 2 ^ 31) (hle : p + 32 ≤ bytes.length)
    (hmagic : (bytes.drop p).take 8 = par2Header) :
    ∃ good f', par2fileCheckPacket cuts name md5 p f = .ok (good, f') ∧ f'.bytes = bytes ∧
      (good = true ↔ ValidPacket md5 bytes p) := by
  subst hfile
  unfold par2fileCheckPacket
  obtain ⟨f1, h1, hbytes1, hpos1⟩ := @readfull_of_le cuts name (f.seek (p + 8)) 8 (by simp; omega)
  obtain ⟨f2, h2, hbytes2, hpos2⟩ := @readfull_of_le cuts name f1 16 (by
    rw [Descriptor.rest, hbytes1, hpos1, List.length_drop, Descriptor.seek_bytes]
    change 16 ≤ f.bytes.length - (p + 8 + 8)
    omega)
  have hrest1 : f1.rest = f.bytes.drop (p + 16) := by
    rw [Descriptor.rest, hbytes1, hpos1]
    rfl
  have hrest2 : f2.rest = f.bytes.drop (p + 32) := by
    rw [Descriptor.rest, hbytes2, hbytes1, hpos2, hpos1]
    rfl
  obtain ⟨hdata, hleft, hbytes3⟩ := @readPacket_spec cuts f2.bytes.length (packetLength f.bytes p) f2 (by
    rw [Descriptor.rest, List.length_drop]
    omega)
  rw [seekSet_of_lt hp]
  simp only [bind, Except.bind, h1, h2]
  change ∃ good f', Except.ok (decide ((readPacket cuts f2.bytes.length (packetLength f.bytes p) f2).2.1 = 0) &&
    decide (md5 (readPacket cuts f2.bytes.length (packetLength f.bytes p) f2).1 = f1.rest.take 16),
      (readPacket cuts f2.bytes.length (packetLength f.bytes p) f2).2.2) = .ok (good, f') ∧ _
  refine ⟨_, _, rfl, by rw [hbytes3, hbytes2, hbytes1, Descriptor.seek_bytes], ?_⟩
  rw [hdata, hleft, hrest1, hrest2, Bool.and_eq_true, decide_eq_true_eq, decide_eq_true_eq, List.length_drop]
  exact ⟨fun h => ⟨hmagic, hle, by omega, h.2⟩, fun h => ⟨by have := h.available; omega, h.hash⟩⟩

theorem checkPacket_of_lt {p : Nat} (hfile : f.bytes = bytes) (hp : p + 8 < 2 ^ 31) (hlt : bytes.length < p + 32) :
    ∃ e, par2fileCheckPacket cuts name md5 p f = .error e := by
  subst hfile
  unfold par2fileCheckPacket
  rw [seekSet_of_lt hp]
  simp only [bind, Except.bind]
  rcases lt_or_ge f.bytes.length (p + 16) with hshort | hlen
  · rw [readfull_of_lt (by simp; omega)]
    exact ⟨_, rfl⟩
  · obtain ⟨f1, h1, hbytes1, hpos1⟩ := @readfull_of_le cuts name (f.seek (p + 8)) 8 (by simp; omega)
    rw [h1]
    dsimp only
    rw [readfull_of_lt]
    · exact ⟨_, rfl⟩
    · rw [Descriptor.rest, hbytes1, hpos1, List.length_drop, Descriptor.seek_bytes]
      change f.bytes.length - (p + 8 + 8) < 16
      omega

/-! ### The rounds -/

/-- The buffer holds the bytes of the file from `pos` up to the place of the descriptor. -/
structure Buffered (bytes : List UInt8) (pos : Nat) (buf : List UInt8) (f : Descriptor UInt8) : Prop where
  file : f.bytes = bytes
  place : f.pos = pos + buf.length
  held : bytes.drop pos = buf ++ bytes.drop (pos + buf.length)

theorem Buffered.le {pos : Nat} {buf : List UInt8} (h : Buffered bytes pos buf f) (hbuf : buf ≠ []) :
    pos + buf.length ≤ bytes.length := by
  have hlength := congrArg List.length h.held
  rw [List.length_append, List.length_drop, List.length_drop] at hlength
  have := List.length_pos_iff.mpr hbuf
  omega

theorem Buffered.read {pos : Nat} {buf : List UInt8} {len : Nat} {r : List UInt8 × Descriptor UInt8}
    (h : Buffered bytes pos buf f) (hread : f.Gives len r) : Buffered bytes pos (buf ++ r.1) r.2 := by
  obtain ⟨hfile, hpos, hbuf⟩ := h
  have hrest := hread.rest
  rw [Descriptor.rest, Descriptor.rest, hread.bytes, hread.pos, hfile, hpos] at hrest
  refine ⟨hread.bytes.trans hfile, ?_, ?_⟩
  · rw [hread.pos, hpos, List.length_append, Nat.add_assoc]
  · rw [hbuf, hrest, List.append_assoc, List.length_append, ← Nat.add_assoc]

theorem fillBuf_none : ∀ (rounds : Nat) {pos : Nat} {buf : List UInt8} {f : Descriptor UInt8}, 8 ≤ rounds + buf.length →
    Buffered bytes pos buf f → fillBuf cuts rounds buf f = none → bytes.length < pos + 8
  | 0, pos, buf, f, hrounds, _, h => by
    unfold fillBuf at h
    rw [if_pos (by omega)] at h
    cases h
  | rounds + 1, pos, buf, f, hrounds, hbuf, h => by
    unfold fillBuf at h
    split at h
    · cases h
    · next hshort =>
      have hread := @Descriptor.read_gives _ cuts f (8192 - buf.length)
      dsimp only at h
      split at h
      · next hempty =>
        have hend := hread.some (by omega) (List.isEmpty_iff.mp hempty)
        rw [Descriptor.rest, hbuf.file, hbuf.place, List.drop_eq_nil_iff] at hend
        omega
      · next hdata =>
        have hpos := List.length_pos_iff.mpr (by simpa using hdata : (f.read cuts (8192 - buf.length)).1 ≠ [])
        exact fillBuf_none rounds (by rw [List.length_append]; omega) (hbuf.read hread) h

theorem fillBuf_some : ∀ (rounds : Nat) {pos : Nat} {buf buf' : List UInt8} {f f' : Descriptor UInt8},
    Buffered bytes pos buf f → fillBuf cuts rounds buf f = some (buf', f') → Buffered bytes pos buf' f' ∧ 8 ≤ buf'.length
  | rounds, pos, buf, buf', f, f', hbuf, h => by
    unfold fillBuf at h
    split at h
    · next henough =>
      cases h
      exact ⟨hbuf, henough⟩
    · cases rounds with
      | zero => cases h
      | succ rounds =>
        dsimp only at h
        split at h
        · cases h
        · exact fillBuf_some rounds (hbuf.read (Descriptor.read_gives _)) h

/-- What a scan of the places from `start` up to `stop` ends with: the first place of a valid packet, or none and the
    descriptor after the buffer, or an exception where no valid packet can follow. -/
inductive Scanned (md5 : List UInt8 → List UInt8) (bytes : List UInt8) (start stop next : Nat) :
    Except Text (Option Nat × Descriptor UInt8) → Prop where
  | found {p f'} (valid : ValidPacket md5 bytes p) (least : ∀ q, start ≤ q → q < p → ¬ValidPacket md5 bytes q)
      (file : f'.bytes = bytes) : Scanned md5 bytes start stop next (.ok (some p, f'))
  | none {f'} (invalid : ∀ q, start ≤ q → q < stop → ¬ValidPacket md5 bytes q) (file : f'.bytes = bytes)
      (pos : f'.pos = next) : Scanned md5 bytes start stop next (.ok (none, f'))
  | thrown {e} (invalid : ∀ q, start ≤ q → ¬ValidPacket md5 bytes q) : Scanned md5 bytes start stop next (.error e)

theorem Scanned.cons {start stop next : Nat} {r : Except Text (Option Nat × Descriptor UInt8)}
    (hinvalid : ¬ValidPacket md5 bytes start) (h : Scanned md5 bytes (start + 1) stop next r) :
    Scanned md5 bytes start stop next r := by
  have hstart : ∀ q, start ≤ q → (start + 1 ≤ q → ¬ValidPacket md5 bytes q) → ¬ValidPacket md5 bytes q := fun q hq h => by
    rcases Nat.eq_or_lt_of_le hq with rfl | hlt
    · exact hinvalid
    · exact h hlt
  cases h with
  | found valid least file => exact .found valid (fun q hq hlt => hstart q hq fun hq => least q hq hlt) file
  | none invalid file pos => exact .none (fun q hq hlt => hstart q hq fun hq => invalid q hq hlt) file pos
  | thrown invalid => exact .thrown fun q hq => hstart q hq (invalid q)

theorem scanBuf_scanned {pos bufc : Nat} (hsize : bytes.length < 2 ^ 31) (hbufc : pos + bufc ≤ bytes.length) :
    ∀ (i : Nat) (buf : List UInt8) (f : Descriptor UInt8), f.bytes = bytes → f.pos = pos + bufc → i + buf.length = bufc →
      bytes.drop (pos + i) = buf ++ bytes.drop (pos + bufc) →
      Scanned md5 bytes (pos + i) (pos + (bufc - 7)) (pos + bufc) (scanBuf cuts name md5 pos bufc i buf f)
  | i, [], f, hfile, hpos, hi, _ => by
    rw [List.length_nil] at hi
    exact .none (fun q hq hlt => by omega) hfile hpos
  | i, b :: buf, f, hfile, hpos, hi, hbuf => by
    rw [List.length_cons] at hi
    have htail : bytes.drop (pos + (i + 1)) = buf ++ bytes.drop (pos + bufc) := by
      rw [← Nat.add_assoc, ← List.drop_drop, hbuf]
      rfl
    unfold scanBuf
    split
    · next hin =>
      have hmagic : (bytes.drop (pos + i)).take 8 = (b :: buf).take 8 := by
        rw [hbuf, List.take_append_of_le_length (by rw [List.length_cons]; omega)]
      rw [← hmagic]
      split
      · next heq =>
        rcases le_or_gt (pos + i + 32) bytes.length with hle | hlt
        · obtain ⟨good, f', hcheck, hfile', hgood⟩ :=
            @checkPacket_of_le cuts name md5 bytes f (pos + i) hfile (by omega) hle heq
          rw [hcheck]
          cases good with
          | true => exact .found (hgood.mp rfl) (fun q hq hlt => absurd hq (not_le.mpr hlt)) hfile'
          | false =>
            have hinvalid : ¬ValidPacket md5 bytes (pos + i) := fun h => Bool.false_ne_true (hgood.mpr h)
            simp only [bind, Except.bind, Bool.false_eq_true, if_false]
            rw [seekSet_of_lt (by omega)]
            exact .cons hinvalid (scanBuf_scanned hsize hbufc (i + 1) buf _ hfile' rfl (by omega) htail)
        · obtain ⟨e, he⟩ := @checkPacket_of_lt cuts name md5 bytes f (pos + i) hfile (by omega) hlt
          rw [he]
          exact .thrown fun q hq h => by have := h.header; omega
      · next hne =>
        exact .cons (fun h => hne h.magic) (scanBuf_scanned hsize hbufc (i + 1) buf f hfile hpos (by omega) htail)
    · next hout => exact .none (fun q hq hlt => by omega) hfile hpos

/-- What the search ends with: the first place of a valid packet, or none or an exception where there is none. -/
inductive Searched (md5 : List UInt8 → List UInt8) (bytes : List UInt8) :
    Except Text (Option Nat × Descriptor UInt8) → Prop where
  | found {p f'} (least : IsLeast {p | ValidPacket md5 bytes p} p) (file : f'.bytes = bytes) :
    Searched md5 bytes (.ok (some p, f'))
  | none {f'} (invalid : ∀ p, ¬ValidPacket md5 bytes p) : Searched md5 bytes (.ok (none, f'))
  | thrown {e} (invalid : ∀ p, ¬ValidPacket md5 bytes p) : Searched md5 bytes (.error e)

theorem par2fileFindPacket_searched (hsize : bytes.length < 2 ^ 31) : ∀ (fuel pos : Nat) (buf : List UInt8)
    (f : Descriptor UInt8), Buffered bytes pos buf f → pos ≤ bytes.length → bytes.length < fuel + pos →
      (∀ q < pos, ¬ValidPacket md5 bytes q) →
      ∃ r, par2fileFindPacket cuts name md5 fuel pos buf f = some r ∧ Searched md5 bytes r
  | 0, pos, buf, f, _, hle, hfuel, _ => absurd hfuel (by omega)
  | fuel + 1, pos, buf, f, hbuf, hle, hfuel, hbelow => by
    unfold par2fileFindPacket
    generalize hfill : fillBuf cuts 8 buf f = filled
    cases filled with
    | none =>
      have hend := fillBuf_none 8 (by omega) hbuf hfill
      exact ⟨_, rfl, .none fun q h => by
        rcases lt_or_ge q pos with hlt | hge
        · exact hbelow q hlt h
        · have := h.header
          omega⟩
    | some filled =>
      obtain ⟨buf, f⟩ := filled
      obtain ⟨hbuf, height⟩ := fillBuf_some 8 hbuf hfill
      have hend := hbuf.le (List.ne_nil_of_length_pos (by omega))
      have hscan := @scanBuf_scanned cuts name md5 bytes pos buf.length hsize hend 0 buf f hbuf.file hbuf.place
        (by omega) hbuf.held
      dsimp only
      generalize scanBuf cuts name md5 pos buf.length 0 buf f = r at hscan ⊢
      have hall : ∀ {bound}, (∀ q, pos + 0 ≤ q → q < bound → ¬ValidPacket md5 bytes q) →
          ∀ q < bound, ¬ValidPacket md5 bytes q := fun h q hq => by
        rcases lt_or_ge q pos with hlt | hge
        · exact hbelow q hlt
        · exact h q hge hq
      cases hscan with
      | found valid least file =>
        exact ⟨_, rfl, .found ⟨valid, fun q hq => not_lt.mp fun hlt => hall least q hlt hq⟩ file⟩
      | none invalid file place =>
        have hkept : bytes.drop (pos + (buf.length - 7)) = buf.drop (buf.length - 7) ++ bytes.drop (pos + buf.length) := by
          rw [← List.drop_drop, hbuf.held, List.drop_append_of_le_length (by omega)]
        have hplace : pos + buf.length = pos + (buf.length - 7) + (buf.drop (buf.length - 7)).length := by
          rw [List.length_drop]
          omega
        exact par2fileFindPacket_searched hsize fuel _ _ _ ⟨file, place.trans hplace, hplace ▸ hkept⟩ (by omega) (by omega)
          (hall invalid)
      | thrown invalid => exact ⟨_, rfl, .thrown fun q => hall (fun q hq _ => invalid q hq) q (Nat.lt_succ_self q)⟩

/-- The hash that is got: that of the first valid packet; and none where there is no such packet, or the file ends
    before its set hash. -/
structure SethashOf (md5 : List UInt8 → List UInt8) (bytes : List UInt8) (r : Option (Option (List UInt8))) : Prop where
  terminates : r ≠ none
  found : ∀ p, IsLeast {p | ValidPacket md5 bytes p} p → p + 48 ≤ bytes.length → r = some (some ((bytes.drop (p + 32)).take 16))
  fails : r = some none ↔ (∀ p, ¬ValidPacket md5 bytes p) ∨
    ∃ p, IsLeast {p | ValidPacket md5 bytes p} p ∧ bytes.length < p + 48

theorem SethashOf.none (h : ∀ p, ¬ValidPacket md5 bytes p) : SethashOf md5 bytes (some none) :=
  ⟨nofun, fun p hp => absurd hp.1 (h p), iff_of_true rfl (Or.inl h)⟩

/-- However the file is cut, the search ends, and the set hash is read at the first valid packet. -/
theorem par2fileGetSethash_sound (cuts : Nat → Nat) (name : Text) (md5 : List UInt8 → List UInt8) (bytes : List UInt8)
    (fuel : Nat) (hsize : bytes.length < 2 ^ 31) (hfuel : bytes.length < fuel) :
    (∃ r, par2fileFindPacket cuts name md5 fuel 0 [] { bytes } = some r ∧ Searched md5 bytes r) ∧
      SethashOf md5 bytes (par2fileGetSethash cuts name md5 fuel bytes) := by
  obtain ⟨r, hfind, hsearched⟩ := @par2fileFindPacket_searched cuts name md5 bytes hsize fuel 0 [] { bytes }
    ⟨rfl, rfl, rfl⟩ (Nat.zero_le _) hfuel (fun q hq => absurd hq (Nat.not_lt_zero q))
  refine ⟨⟨r, hfind, hsearched⟩, ?_⟩
  unfold par2fileGetSethash
  rw [hfind]
  cases hsearched with
  | none invalid => exact .none invalid
  | thrown invalid => exact .none invalid
  | @found p f least file =>
    subst file
    have hheader := least.1.header
    have hneg : ¬Int32.ofNat p < 0 := by
      rw [Int32.lt_iff_toInt_lt, Int32.toInt_ofNat_of_lt (by omega)]
      exact not_lt.mpr (Int.natCast_nonneg p)
    dsimp only
    rw [if_neg hneg, seekSet_of_lt (by omega)]
    dsimp only
    rcases lt_or_ge f.bytes.length (p + 48) with hshort | hlen
    · rw [readfull_of_lt (by simp; omega)]
      exact ⟨nofun, fun q hq hle => absurd (hq.unique least ▸ hle) (by omega), iff_of_true rfl (Or.inr ⟨p, least, hshort⟩)⟩
    · obtain ⟨f', hread, -, -⟩ := @readfull_of_le cuts name (f.seek (p + 32)) 16 (by simp; omega)
      rw [hread]
      refine ⟨nofun, fun q hq _ => by rw [hq.unique least]; rfl, iff_of_false nofun ?_⟩
      rintro (h | ⟨q, hq, hlt⟩)
      · exact h p least.1
      · exact absurd (hq.unique least ▸ hlt) (by omega)

/-- The digest of the one packet of `samplePar2`. -/
def samplePacketHash : List UInt8 :=
  [0x19, 0x0c, 0x4c, 0x10, 0x57, 0x86, 0xa2, 0x12, 0x1d, 0x85, 0x01, 0x89, 0x39, 0x10, 0x8a, 0x6c]

/-- A byte that belongs to no packet, and a packet that is its set hash only. -/
def samplePar2 : List UInt8 :=
  0 :: par2Header ++ [48, 0, 0, 0, 0, 0, 0, 0] ++ samplePacketHash ++ [1, 2, 3, 4, 5, 6, 7, 8, 9, 10, 11, 12, 13, 14, 15, 16]

def sampleMd5 (data : List UInt8) : List UInt8 :=
  if data = [1, 2, 3, 4, 5, 6, 7, 8, 9, 10, 11, 12, 13, 14, 15, 16] then samplePacketHash else []

example : par2fileGetSethash (fun _ => 5) [] sampleMd5 50 samplePar2 =
    some (some [1, 2, 3, 4, 5, 6, 7, 8, 9, 10, 11, 12, 13, 14, 15, 16]) := by decide +kernel

theorem par2fileGetSethash_sound_sample :
    (∃ r, par2fileFindPacket (fun _ => 5) [] sampleMd5 50 0 [] { bytes := samplePar2 } = some r ∧
      Searched sampleMd5 samplePar2 r) ∧
    SethashOf sampleMd5 samplePar2 (par2fileGetSethash (fun _ => 5) [] sampleMd5 50 samplePar2) :=
  par2fileGetSethash_sound (fun _ => 5) [] sampleMd5 samplePar2 50 (by decide) (by decide)

end Nget

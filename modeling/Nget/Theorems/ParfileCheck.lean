import Nget.Theorems.Par2Search
import Mathlib.Data.List.DropRight

/-! What `parfile_check` reads and counts. An entry of the file list is read from its place in the file, and the loop
    goes from entry to entry. The room that is made for a name is that for its length as an `int`, which is enough
    exactly where the length is one. A name is what follows its last character that could not be handled, and each such
    character was counted. -/

namespace Nget

variable {cuts : Nat → Nat} {name : Text} {f : Descriptor UInt8} {reserved : Int32} {disk : ParDisk} {path : Text}
  {nocaseMap : List (Text × Text)}

/-! ### The entries of a file list -/

/-- The entry of a file list that starts with these bytes. -/
def entryAt (bytes : List UInt8) : ParfileEntry :=
  let entrysize := UInt32.ofNat (leNat (bytes.take 4))
  { entrysize
    status := ((bytes.drop 8).take 1).headD 0
    filesize := UInt64.ofNat (leNat ((bytes.drop 16).take 8))
    fileHash := (bytes.drop 24).take 16
    name := (bytes.drop 0x38).take (entrysize - 0x38).toNat }

/-- The number of bytes that are read for the name. -/
def ParfileEntry.nameLength (e : ParfileEntry) : Nat := (e.entrysize - 0x38).toNat

theorem readInto_overrun {len capacity : Nat} (h : capacity < len) :
    readInto cuts name len capacity f = .error (.overrun len capacity) := if_pos h

/-- A read of the bytes from place `n` into a buffer that has room: whatever follows is right if it is right where the
    file ends before, and on the bytes that are read. -/
theorem readInto_bind {α : Type} {P : Except ParfileStop α → Prop} {bytes : List UInt8} {n len capacity : Nat}
    {k : List UInt8 × Descriptor UInt8 → Except ParfileStop α} (hf : f.rest = bytes.drop n) (hn : n ≤ bytes.length)
    (hroom : len ≤ capacity) (hcut : bytes.length < n + len → ∀ text, P (.error (.thrown text)))
    (hread : n + len ≤ bytes.length → ∀ f', f'.rest = bytes.drop (n + len) → P (k ((bytes.drop n).take len, f'))) :
    P (readInto cuts name len capacity f >>= k) := by
  unfold readInto
  rw [if_neg (not_lt.mpr hroom)]
  have hlength : f.rest.length = bytes.length - n := by rw [hf, List.length_drop]
  rcases lt_or_ge f.rest.length len with hlt | hle
  · rw [readfull_of_lt hlt]
    exact hcut (by omega) _
  · obtain ⟨f', hgot, hbytes, hpos⟩ := @readfull_of_le cuts name f len hle
    rw [hgot, hf]
    refine hread (by omega) f' ?_
    rw [← List.drop_drop, ← hf, Descriptor.rest, hbytes, hpos, ← List.drop_drop]
    rfl

/-- What reading an entry ends with. -/
inductive EntryRead (f : Descriptor UInt8) : Except ParfileStop (ParfileEntry × Int32 × Descriptor UInt8) → Prop where
  | short {text} (h : f.rest.length < 0x38) : EntryRead f (.error (.thrown text))
  | overrun {capacity} (header : 0x38 ≤ f.rest.length) (large : 2 ^ 31 ≤ (entryAt f.rest).nameLength) :
    EntryRead f (.error (.overrun (entryAt f.rest).nameLength capacity))
  | cut {text} (header : 0x38 ≤ f.rest.length) (fits : (entryAt f.rest).nameLength < 2 ^ 31)
    (h : f.rest.length < 0x38 + (entryAt f.rest).nameLength) : EntryRead f (.error (.thrown text))
  | entry {reserved' f'} (header : 0x38 ≤ f.rest.length) (fits : (entryAt f.rest).nameLength < 2 ^ 31)
    (all : 0x38 + (entryAt f.rest).nameLength ≤ f.rest.length) (room : 64 ≤ reserved')
    (rest : f'.rest = f.rest.drop (0x38 + (entryAt f.rest).nameLength)) :
    EntryRead f (.ok (entryAt f.rest, reserved', f'))

theorem reserve_ge {s : Int32} (h : 64 ≤ reserved) : 64 ≤ CharBuffer.reserve s reserved := by
  unfold CharBuffer.reserve
  grind

/-- The room is enough exactly where the length is an `int`. -/
theorem reserve_lt_iff {len : UInt32} (h : 64 ≤ reserved) :
    (CharBuffer.reserve len.toInt32 reserved).toInt.toNat < len.toNat ↔ 2 ^ 31 ≤ len.toNat := by
  have hlen : len.toInt32.toInt = if 2 * len.toNat < 2 ^ 32 then (len.toNat : Int) else len.toNat - 2 ^ 32 :=
    BitVec.toInt_eq_toNat_cond len.toBitVec
  have hlt := len.toNat_lt
  have hmax := reserved.toInt_lt
  have h64 := Int32.le_iff_toInt_le.mp h
  rw [show (64 : Int32).toInt = 64 from rfl] at h64
  unfold CharBuffer.reserve
  split
  · next hmore =>
    have := Int32.lt_iff_toInt_lt.mp hmore
    split at hlen <;> omega
  · next hmore =>
    have := mt Int32.lt_iff_toInt_lt.mpr hmore
    split at hlen <;> omega

theorem readEntry_read (hroom : 64 ≤ reserved) : EntryRead f (readEntry cuts name reserved f) := by
  have h64 : 64 ≤ reserved.toInt.toNat := by
    have := Int32.le_iff_toInt_le.mp hroom
    have h64 : (64 : Int32).toInt = 64 := rfl
    omega
  have hstart : f.rest = f.rest.drop 0 := rfl
  unfold readEntry
  refine readInto_bind (P := EntryRead f) hstart (by omega) le_rfl (fun h text => .short (by omega)) fun h1 f1 hf1 => ?_
  refine readInto_bind (P := EntryRead f) hf1 h1 (by omega) (fun h text => .short (by omega)) fun h2 f2 hf2 => ?_
  refine readInto_bind (P := EntryRead f) hf2 h2 le_rfl (fun h text => .short (by omega)) fun h3 f3 hf3 => ?_
  refine readInto_bind (P := EntryRead f) hf3 h3 (by omega) (fun h text => .short (by omega)) fun h4 f4 hf4 => ?_
  refine readInto_bind (P := EntryRead f) hf4 h4 le_rfl (fun h text => .short (by omega)) fun h5 f5 hf5 => ?_
  refine readInto_bind (P := EntryRead f) hf5 h5 le_rfl (fun h text => .short (by omega)) fun h6 f6 hf6 => ?_
  refine readInto_bind (P := EntryRead f) hf6 h6 (by omega) (fun h text => .short (by omega)) fun h7 f7 hf7 => ?_
  have hsize : UInt32.ofNat (leNat ((f.rest.drop 0).take 4)) - 0x38 = (entryAt f.rest).entrysize - 0x38 := rfl
  dsimp only
  rw [hsize]
  rcases lt_or_ge (CharBuffer.reserve ((entryAt f.rest).entrysize - 0x38).toInt32 reserved).toInt.toNat
    ((entryAt f.rest).entrysize - 0x38).toNat with hlarge | hfits
  · rw [readInto_overrun hlarge]
    exact .overrun h7 ((reserve_lt_iff hroom).mp hlarge)
  · have hint : (entryAt f.rest).nameLength < 2 ^ 31 :=
      not_le.mp fun h => not_lt.mpr hfits ((reserve_lt_iff hroom).mpr h)
    exact readInto_bind (P := EntryRead f) hf7 h7 hfits (fun h text => .cut h7 hint h) fun h8 f8 hf8 =>
      .entry h7 hint h8 (reserve_ge hroom) hf8

/-! ### The header -/

/-- The file has a header that `parfile_check_header` accepts. -/
def SupportedHeader (bytes : List UInt8) : Prop :=
  16 ≤ bytes.length ∧ bytes.take 8 = parHeader ∧ ((bytes.drop 8).take 8).take 4 = [0, 0, 1, 0]

/-- The number of files that the header says. -/
def numfilesOf (bytes : List UInt8) : Nat := (UInt32.ofNat (leNat ((bytes.drop 56).take 4))).toNat

theorem parfileCheckHeader_supported {bytes : List UInt8} (h : SupportedHeader bytes) :
    ∃ f, parfileCheckHeader cuts name { bytes } = .ok (true, 0, f) ∧ f.rest = bytes.drop 16 := by
  obtain ⟨hlength, hmagic, hversion⟩ := h
  have hstart : ({ bytes } : Descriptor UInt8).rest = bytes.drop 0 := rfl
  unfold parfileCheckHeader
  let P : Except ParfileStop (Bool × Nat × Descriptor UInt8) → Prop := fun r =>
    ∃ f, r = .ok (true, 0, f) ∧ f.rest = bytes.drop 16
  refine readInto_bind (P := P) hstart (Nat.zero_le _) le_rfl (fun h _ => absurd hlength (by omega)) fun h1 f1 hf1 => ?_
  dsimp only
  rw [List.drop_zero, if_neg (not_not.mpr hmagic)]
  refine readInto_bind (P := P) hf1 h1 le_rfl (fun h _ => absurd hlength (by omega)) fun h2 f2 hf2 => ?_
  dsimp only
  rw [if_neg (not_not.mpr hversion)]
  exact ⟨f2, rfl, hf2⟩

theorem readNumfiles_of_le {bytes : List UInt8} (hf : f.rest = bytes.drop 16) (h : 0x60 ≤ bytes.length) :
    ∃ numfiles f', readNumfiles cuts name f = .ok (numfiles, f') ∧ numfiles.toNat = numfilesOf bytes ∧
      f'.rest = bytes.drop 0x60 := by
  unfold readNumfiles
  let P : Except ParfileStop (UInt32 × Descriptor UInt8) → Prop := fun r =>
    ∃ numfiles f', r = .ok (numfiles, f') ∧ numfiles.toNat = numfilesOf bytes ∧ f'.rest = bytes.drop 0x60
  refine readInto_bind (P := P) hf (by omega) (by decide) (fun h _ => absurd h (by omega)) fun h1 f1 hf1 => ?_
  refine readInto_bind (P := P) hf1 h1 le_rfl (fun h _ => absurd h (by omega)) fun h2 f2 hf2 => ?_
  refine readInto_bind (P := P) hf2 h2 (by decide) (fun h _ => absurd h (by omega)) fun h3 f3 hf3 => ?_
  refine readInto_bind (P := P) hf3 h3 le_rfl (fun h _ => absurd h (by omega)) fun h4 f4 hf4 => ?_
  refine readInto_bind (P := P) hf4 h4 (by decide) (fun h _ => absurd h (by omega)) fun h5 f5 hf5 => ?_
  exact ⟨_, f5, rfl, rfl, hf5⟩

theorem readNumfiles_of_lt {bytes : List UInt8} (hf : f.rest = bytes.drop 16) (h16 : 16 ≤ bytes.length)
    (h : bytes.length < 0x60) : ∃ text, readNumfiles cuts name f = .error (.thrown text) := by
  unfold readNumfiles
  let P : Except ParfileStop (UInt32 × Descriptor UInt8) → Prop := fun r => ∃ text, r = .error (.thrown text)
  refine readInto_bind (P := P) hf h16 (by decide) (fun _ text => ⟨text, rfl⟩) fun h1 f1 hf1 => ?_
  refine readInto_bind (P := P) hf1 h1 le_rfl (fun _ text => ⟨text, rfl⟩) fun h2 f2 hf2 => ?_
  refine readInto_bind (P := P) hf2 h2 (by decide) (fun _ text => ⟨text, rfl⟩) fun h3 f3 hf3 => ?_
  refine readInto_bind (P := P) hf3 h3 le_rfl (fun _ text => ⟨text, rfl⟩) fun h4 f4 hf4 => ?_
  exact readInto_bind (P := P) hf4 h4 (by decide) (fun _ text => ⟨text, rfl⟩) fun h5 _ _ => absurd h5 (by omega)

/-! ### The characters of a name -/

/-- The characters of a name, two bytes each. -/
def nameChars : List UInt8 → List (UInt8 × UInt8)
  | lo :: hi :: buf => (lo, hi) :: nameChars buf
  | _ => []

/-- A character that `parfile_check` cannot handle. -/
def foreign (c : UInt8 × UInt8) : Bool := 127 < c.1 || c.2 ≠ 0

def lowerChar (c : UInt8 × UInt8) : Char := (Char.ofNat c.1.toNat).toLower

/-- A round of the loop over the characters. -/
def addChar (s : Text × Nat) (c : UInt8 × UInt8) : Text × Nat :=
  if foreign c then ([], s.2 + 1) else (s.1 ++ [lowerChar c], s.2)

theorem nameChars_drop : ∀ (n : Nat) (buf : List UInt8), (nameChars buf).drop n = nameChars (buf.drop (n * 2))
  | 0, buf => rfl
  | n + 1, [] => rfl
  | n + 1, [_] => by simp [nameChars, show (n + 1) * 2 = n * 2 + 1 + 1 by omega]
  | n + 1, lo :: hi :: buf => by
    rw [show (n + 1) * 2 = n * 2 + 1 + 1 by omega]
    exact nameChars_drop n buf

theorem nameChars_length : ∀ buf : List UInt8, (nameChars buf).length = buf.length / 2
  | [] => rfl
  | [_] => by simp [nameChars]
  | lo :: hi :: buf => by
    rw [nameChars, List.length_cons, nameChars_length buf, List.length_cons, List.length_cons]
    omega

/-- The loop never looks past the bytes that were read, and goes through the characters. -/
theorem entryName_eq {buf : List UInt8} : ∀ (count n : Nat) (filename : Text) (bad : Nat), (n + count) * 2 ≤ buf.length →
    entryName buf count n filename bad = .ok (((nameChars (buf.drop (n * 2))).take count).foldl addChar (filename, bad))
  | 0, n, filename, bad, _ => rfl
  | count + 1, n, filename, bad, h => by
    have hlo : n * 2 < buf.length := by omega
    have hhi : n * 2 + 1 < buf.length := by omega
    have hchars : nameChars (buf.drop (n * 2)) = (buf[n * 2], buf[n * 2 + 1]) :: nameChars (buf.drop ((n + 1) * 2)) := by
      rw [List.drop_eq_getElem_cons hlo, List.drop_eq_getElem_cons hhi, nameChars,
        show (n + 1) * 2 = n * 2 + 1 + 1 by omega]
    have ih := fun filename bad => entryName_eq count (n + 1) filename bad (by omega : (n + 1 + count) * 2 ≤ buf.length)
    unfold entryName
    rw [List.getElem?_eq_getElem hlo, List.getElem?_eq_getElem hhi, hchars, List.take_succ_cons, List.foldl_cons]
    dsimp only
    split
    · next hbig =>
      rw [ih, addChar, if_pos (by simp [foreign, hbig])]
    · next hsmall =>
      split
      · next hne => rw [ih, addChar, if_pos (by simp [foreign, hne])]
      · next hzero => rw [ih, addChar, if_neg (by simp [foreign, hsmall, not_not.mp hzero])]; rfl

namespace ParfileEntry

/-- How many characters of the name cannot be handled. -/
def badChars (e : ParfileEntry) : Nat := (nameChars e.name).countP foreign

/-- What the loop makes of the name: what follows its last character that cannot be handled. -/
def restName (e : ParfileEntry) : Text := ((nameChars e.name).rtakeWhile (!foreign ·)).map lowerChar

end ParfileEntry

theorem foldl_addChar (cs : List (UInt8 × UInt8)) :
    cs.foldl addChar ([], 0) = ((cs.rtakeWhile (!foreign ·)).map lowerChar, cs.countP foreign) := by
  induction cs using List.reverseRecOn with
  | nil => rfl
  | append_singleton cs c ih =>
    rw [List.foldl_append, ih, List.foldl_cons, List.foldl_nil, addChar, List.countP_append]
    split
    · next hc =>
      rw [List.rtakeWhile_concat_neg _ _ _ (by simp [hc]), List.countP_cons_of_pos hc]
      rfl
    · next hc =>
      rw [List.rtakeWhile_concat_pos _ _ _ (by simpa using hc), List.countP_cons_of_neg hc, List.map_append]
      rfl

theorem entryName_entryAt {bytes : List UInt8} (h : 0x38 + (entryAt bytes).nameLength ≤ bytes.length) :
    entryName (entryAt bytes).name (((entryAt bytes).entrysize - 0x38) / 2).toNat 0 [] 0 =
      .ok ((entryAt bytes).restName, (entryAt bytes).badChars) := by
  have hlength : (entryAt bytes).name.length = (entryAt bytes).nameLength := by
    change ((bytes.drop 0x38).take (entryAt bytes).nameLength).length = _
    rw [List.length_take, List.length_drop]
    omega
  have hcount : (((entryAt bytes).entrysize - 0x38) / 2).toNat = (entryAt bytes).name.length / 2 := by
    rw [hlength, UInt32.toNat_div]
    rfl
  rw [hcount, entryName_eq _ _ _ _ (by omega), Nat.zero_mul, List.drop_zero, ← nameChars_length, List.take_length,
    foldl_addChar]
  rfl

/-! ### The bounds of the buffer -/

/-- How long the names are of the entries that the loop comes to. -/
def nameLengths : Nat → List UInt8 → List Nat
  | 0, _ => []
  | numfiles + 1, bytes =>
    if bytes.length < 0x38 then []
    else (entryAt bytes).nameLength :: nameLengths numfiles (bytes.drop (0x38 + (entryAt bytes).nameLength))

/-- No read was asked for more than its buffer has room for, and no index of a name was past what was read. -/
def InBounds {α : Type} (r : Except ParfileStop α) : Prop := ∀ stop, r = .error stop → ∃ text, stop = .thrown text

theorem InBounds.thrown {α : Type} {text : Text} : InBounds (.error (.thrown text) : Except ParfileStop α) := by
  rintro stop ⟨⟩
  exact ⟨text, rfl⟩

theorem InBounds.ok {α : Type} {a : α} : InBounds (.ok a : Except ParfileStop α) := nofun

theorem not_inBounds_overrun {α : Type} {asked capacity : Nat} :
    ¬InBounds (.error (.overrun asked capacity) : Except ParfileStop α) := fun h => by
  obtain ⟨text, htext⟩ := h _ rfl
  cases htext

theorem parfileEntries_inBounds : ∀ (numfiles : Nat) (needed : Int) (warnings : Nat) (reserved : Int32)
    (f : Descriptor UInt8), 64 ≤ reserved → (∀ len ∈ nameLengths numfiles f.rest, len < 2 ^ 31) →
      InBounds (parfileEntries cuts name disk path nocaseMap numfiles needed warnings reserved f).1
  | 0, needed, warnings, reserved, f, _, _ => InBounds.ok
  | numfiles + 1, needed, warnings, reserved, f, hroom, hlengths => by
    have hread := @readEntry_read cuts name f reserved hroom
    unfold parfileEntries
    generalize readEntry cuts name reserved f = r at hread ⊢
    unfold nameLengths at hlengths
    cases hread with
    | short h => exact InBounds.thrown
    | cut header fits h => exact InBounds.thrown
    | overrun header large =>
      rw [if_neg (not_lt.mpr header), List.forall_mem_cons] at hlengths
      exact absurd hlengths.1 (not_lt.mpr large)
    | @entry reserved' f' header fits all room rest =>
      rw [if_neg (not_lt.mpr header), List.forall_mem_cons, ← rest] at hlengths
      have ih := fun needed warnings => parfileEntries_inBounds numfiles needed warnings reserved' f' room hlengths.2
      dsimp only
      split
      · exact ih needed warnings
      · rw [entryName_entryAt all]
        dsimp only
        split
        · exact InBounds.thrown
        · exact ih _ _

theorem nameLengths_of_inBounds : ∀ (numfiles : Nat) (needed : Int) (warnings : Nat) (reserved : Int32)
    (f : Descriptor UInt8), 64 ≤ reserved →
      InBounds (parfileEntries cuts name disk path [] numfiles needed warnings reserved f).1 →
        ∀ len ∈ nameLengths numfiles f.rest, len < 2 ^ 31
  | 0, needed, warnings, reserved, f, _, _ => nofun
  | numfiles + 1, needed, warnings, reserved, f, hroom, h => by
    have hread := @readEntry_read cuts name f reserved hroom
    unfold parfileEntries at h
    generalize readEntry cuts name reserved f = r at hread h
    unfold nameLengths
    cases hread with
    | short hshort =>
      rw [if_pos hshort]
      nofun
    | cut header fits hcut =>
      have hrest : f.rest.drop (0x38 + (entryAt f.rest).nameLength) = [] := List.drop_of_length_le hcut.le
      have hnone : nameLengths numfiles [] = [] := by cases numfiles <;> rfl
      rw [if_neg (not_lt.mpr header), hrest, hnone, List.forall_mem_singleton]
      exact fits
    | overrun header large => exact absurd h not_inBounds_overrun
    | @entry reserved' f' header fits all room rest =>
      rw [if_neg (not_lt.mpr header), List.forall_mem_cons, ← rest]
      have ih := fun needed warnings => nameLengths_of_inBounds numfiles needed warnings reserved' f' room
      refine ⟨fits, ?_⟩
      dsimp only at h
      split at h
      · exact ih needed warnings h
      · have hfound : ∀ filename, ∃ found, nameFound disk path [] (entryAt f.rest) filename = .ok found := fun filename => by
          unfold nameFound
          split
          · exact ⟨true, rfl⟩
          · exact ⟨false, rfl⟩
        obtain ⟨found, hfound⟩ := hfound (entryAt f.rest).restName
        rw [entryName_entryAt all] at h
        dsimp only at h
        rw [hfound] at h
        exact ih _ _ h

/-- The bytes of the file list, where the file has one. -/
def fileList (bytes : List UInt8) : List UInt8 := bytes.drop 0x60

theorem parfileCheck_of_le {bytes : List UInt8} (h : SupportedHeader bytes) (hlength : 0x60 ≤ bytes.length) :
    ∃ f, f.rest = fileList bytes ∧ parfileCheck cuts name disk path nocaseMap bytes =
      parfileEntries cuts name disk path nocaseMap (numfilesOf bytes) 0 0 64 f := by
  obtain ⟨f, hheader, hf⟩ := @parfileCheckHeader_supported cuts name bytes h
  obtain ⟨numfiles, f', hread, hnum, hf'⟩ := @readNumfiles_of_le cuts name f bytes hf hlength
  refine ⟨f', hf', ?_⟩
  unfold parfileCheck
  rw [hheader]
  dsimp only
  rw [hread, ← hnum]

theorem parfileCheck_of_lt {bytes : List UInt8} (h : SupportedHeader bytes) (hlength : bytes.length < 0x60) :
    ∃ text, (parfileCheck cuts name disk path nocaseMap bytes).1 = .error (.thrown text) := by
  obtain ⟨f, hheader, hf⟩ := @parfileCheckHeader_supported cuts name bytes h
  obtain ⟨text, hread⟩ := @readNumfiles_of_lt cuts name f bytes hf h.1 hlength
  refine ⟨text, ?_⟩
  unfold parfileCheck
  rw [hheader]
  dsimp only
  rw [hread]

/-- On every disk the reads stay within their buffers exactly where the loop comes to no entry whose name is as long as
    no `int` is; that is the case of every entry that says a size below 0x38. -/
theorem parfileCheck_inBounds_iff (cuts : Nat → Nat) (name path : Text) (bytes : List UInt8) (h : SupportedHeader bytes) :
    (∀ (disk : ParDisk) (nocaseMap : List (Text × Text)), InBounds (parfileCheck cuts name disk path nocaseMap bytes).1) ↔
      ∀ len ∈ nameLengths (numfilesOf bytes) (fileList bytes), len < 2 ^ 31 := by
  rcases lt_or_ge bytes.length 0x60 with hlt | hle
  · have hrest : fileList bytes = [] := List.drop_of_length_le hlt.le
    have hnone : nameLengths (numfilesOf bytes) [] = [] := by cases numfilesOf bytes <;> rfl
    rw [hrest, hnone]
    refine iff_of_true (fun disk nocaseMap => ?_) nofun
    obtain ⟨text, hthrown⟩ := @parfileCheck_of_lt cuts name disk path nocaseMap bytes h hlt
    rw [hthrown]
    exact InBounds.thrown
  · constructor
    · intro hbounds
      have hempty := hbounds ⟨fun _ => none, fun _ => .error []⟩ []
      obtain ⟨f, hf, hcheck⟩ :=
        @parfileCheck_of_le cuts name ⟨fun _ => none, fun _ => .error []⟩ path [] bytes h hle
      rw [hcheck] at hempty
      exact hf ▸ nameLengths_of_inBounds _ _ _ _ f le_rfl hempty
    · intro hlengths disk nocaseMap
      obtain ⟨f, hf, hcheck⟩ := @parfileCheck_of_le cuts name disk path nocaseMap bytes h hle
      rw [hcheck]
      exact parfileEntries_inBounds _ _ _ _ f le_rfl (hf ▸ hlengths)

/-- A header for one file, with zeros where nothing is looked at. -/
def sampleParHeader : List UInt8 :=
  parHeader ++ [0, 0, 1, 0] ++ List.replicate 44 0 ++ [1, 0, 0, 0] ++ List.replicate 36 0

/-- An entry with this size, status and name. -/
def sampleEntry (entrysize status : UInt8) (name : List UInt8) : List UInt8 :=
  [entrysize, 0, 0, 0, 0, 0, 0, 0, status] ++ List.replicate 47 0 ++ name

theorem parfileCheck_inBounds_iff_sample :
    (∀ (disk : ParDisk) (nocaseMap : List (Text × Text)), InBounds (parfileCheck (fun _ => 7) "a.par".toList disk []
      nocaseMap (sampleParHeader ++ sampleEntry 0x3a 1 [0x61, 0])).1) ↔
      ∀ len ∈ nameLengths (numfilesOf (sampleParHeader ++ sampleEntry 0x3a 1 [0x61, 0]))
        (fileList (sampleParHeader ++ sampleEntry 0x3a 1 [0x61, 0])), len < 2 ^ 31 :=
  parfileCheck_inBounds_iff (fun _ => 7) "a.par".toList [] (sampleParHeader ++ sampleEntry 0x3a 1 [0x61, 0])
    ⟨by decide +kernel, by decide +kernel, by decide +kernel⟩

/-- An entry that says the size zero makes the name 2^32 - 56 bytes long, read into the 64 bytes that there are. -/
theorem parfileCheck_inBounds_fails : ¬∀ (cuts : Nat → Nat) (name path : Text) (bytes : List UInt8), SupportedHeader bytes →
    ∀ (disk : ParDisk) (nocaseMap : List (Text × Text)),
      InBounds (parfileCheck cuts name disk path nocaseMap bytes).1 := by
  intro h
  have hover : (parfileCheck (fun _ => 4096) [] ⟨fun _ => none, fun _ => .ok []⟩ [] []
      (sampleParHeader ++ sampleEntry 0 1 [])).1 = .error (.overrun 4294967240 64) := by decide +kernel
  have hbounds := h (fun _ => 4096) [] [] (sampleParHeader ++ sampleEntry 0 1 [])
    ⟨by decide +kernel, by decide +kernel, by decide +kernel⟩
    ⟨fun _ => none, fun _ => .ok []⟩ []
  rw [hover] at hbounds
  exact not_inBounds_overrun hbounds

/-! ### The count -/

/-- The entries of a file list. -/
def listEntries : Nat → List UInt8 → List ParfileEntry
  | 0, _ => []
  | numfiles + 1, bytes =>
    entryAt bytes :: listEntries numfiles (bytes.drop (entryAt bytes).entrysize.toNat)

/-- Every entry has a size of 0x38 at least, and its name is there. -/
def WellFormed : Nat → List UInt8 → Prop
  | 0, _ => True
  | numfiles + 1, bytes => 0x38 ≤ bytes.length ∧ 0x38 ≤ (entryAt bytes).entrysize.toNat ∧
      (entryAt bytes).entrysize.toNat ≤ bytes.length ∧ WellFormed numfiles (bytes.drop (entryAt bytes).entrysize.toNat)

section
variable (fsize : Text → Option Int64) (hashes : Text → List UInt8) (path : Text) (nocaseMap : List (Text × Text))

/-- A file of the name has the size and the hash of the entry. -/
def hasGoodMatch (e : ParfileEntry) (filename : Text) : Bool :=
  nocaseMap.any fun m => m.1 = filename && ((fsize (pathJoin path m.2)).any (·.toUInt64 = e.filesize) &&
    e.fileHash = hashes (pathJoin path m.2))

namespace ParfileEntry

/-- Status bit 0: the file is in the parity volume set. -/
def inSet (e : ParfileEntry) : Bool := e.status &&& 1 ≠ 0

/-- Whether an entry of the set has no good match; one whose name cannot be represented has none. -/
def isNeeded (e : ParfileEntry) : Bool :=
  0 < e.badChars || !hasGoodMatch fsize hashes path nocaseMap e ((nameChars e.name).map lowerChar)

/-- What the loop adds for an entry of the set. -/
def counted (e : ParfileEntry) : Nat :=
  e.badChars + if e.restName.isEmpty || hasGoodMatch fsize hashes path nocaseMap e e.restName then 0 else 1

/-- How often an entry of the set is counted that was counted before: each character that cannot be handled after the
    first, and what follows the last one where that is a name that has no good match. -/
def surplus (e : ParfileEntry) : Nat :=
  if e.badChars = 0 then 0 else e.counted fsize hashes path nocaseMap - 1

/-- The name of the entry is empty, and it has no good match. -/
def isBlank (e : ParfileEntry) : Bool :=
  (nameChars e.name).isEmpty && !hasGoodMatch fsize hashes path nocaseMap e []

end ParfileEntry
end

variable {fsize : Text → Option Int64} {hashes : Text → List UInt8}

theorem goodMatch_eq {filesize : UInt64} {fileHash : List UInt8} : ∀ ms : List Text,
    goodMatch ⟨fsize, fun file => .ok (hashes file)⟩ path filesize fileHash ms =
      .ok (ms.any fun m => (fsize (pathJoin path m)).any (·.toUInt64 = filesize) && fileHash = hashes (pathJoin path m))
  | [] => rfl
  | m :: ms => by
    have ih := @goodMatch_eq filesize fileHash ms
    unfold goodMatch
    rw [List.any_cons]
    dsimp only
    cases fsize (pathJoin path m) with
    | none => exact ih
    | some size =>
      by_cases hsize : size.toUInt64 = filesize
      · by_cases hhash : fileHash = hashes (pathJoin path m)
        · simp [hsize, hhash]
        · simpa [hsize, hhash] using ih
      · simpa [hsize] using ih

theorem nameFound_eq {e : ParfileEntry} {filename : Text} :
    nameFound ⟨fsize, fun file => .ok (hashes file)⟩ path nocaseMap e filename =
      .ok (filename.isEmpty || hasGoodMatch fsize hashes path nocaseMap e filename) := by
  unfold nameFound hasGoodMatch
  split
  · next hempty => rw [hempty, Bool.true_or]
  · next hname =>
    rw [goodMatch_eq, List.any_map, List.any_filter, Bool.eq_false_iff.mpr hname, Bool.false_or]
    rfl

theorem nameLength_of_le {bytes : List UInt8} (h : 0x38 ≤ (entryAt bytes).entrysize.toNat) :
    0x38 + (entryAt bytes).nameLength = (entryAt bytes).entrysize.toNat := by
  have hle : (0x38 : UInt32) ≤ (entryAt bytes).entrysize := UInt32.le_iff_toNat_le.mpr h
  have h38 : (0x38 : UInt32).toNat = 0x38 := rfl
  rw [ParfileEntry.nameLength, UInt32.toNat_sub_of_le _ _ hle, h38]
  omega

/-- On a well-formed list the loop adds up what it counts for each entry of the set, unless a name is as long as no
    `int` is. -/
theorem parfileEntries_count : ∀ (numfiles : Nat) (needed : Int) (warnings : Nat) (reserved : Int32)
    (f : Descriptor UInt8), 64 ≤ reserved → WellFormed numfiles f.rest →
      ((∀ e ∈ listEntries numfiles f.rest, e.nameLength < 2 ^ 31) →
        (parfileEntries cuts name ⟨fsize, fun file => .ok (hashes file)⟩ path nocaseMap numfiles needed warnings reserved
          f).1 = .ok (needed + (((listEntries numfiles f.rest).filter (·.inSet)).map
            (·.counted fsize hashes path nocaseMap)).sum)) ∧
      ((∃ e ∈ listEntries numfiles f.rest, 2 ^ 31 ≤ e.nameLength) →
        ∃ stop, (parfileEntries cuts name ⟨fsize, fun file => .ok (hashes file)⟩ path nocaseMap numfiles needed warnings
          reserved f).1 = .error stop)
  | 0, needed, warnings, reserved, f, _, _ => ⟨fun _ => by simp [parfileEntries, listEntries], by simp [listEntries]⟩
  | numfiles + 1, needed, warnings, reserved, f, hroom, ⟨hheader, hsize, hall, hlater⟩ => by
    have hlength := nameLength_of_le hsize
    have hread := @readEntry_read cuts name f reserved hroom
    unfold parfileEntries listEntries
    generalize readEntry cuts name reserved f = r at hread ⊢
    rw [List.forall_mem_cons, List.exists_mem_cons_iff]
    cases hread with
    | short h => omega
    | cut _ _ h => omega
    | overrun _ large => exact ⟨fun h => absurd h.1 (not_lt.mpr large), fun _ => ⟨_, rfl⟩⟩
    | @entry reserved' f' _ fits all room rest =>
      rw [hlength] at rest
      rw [← rest] at hlater ⊢
      have ih := fun needed warnings =>
        parfileEntries_count numfiles needed warnings reserved' f' room hlater
      dsimp only
      split
      · next hout =>
        rw [List.filter_cons_of_neg (by simp [ParfileEntry.inSet, hout])]
        exact ⟨fun h => (ih needed warnings).1 h.2, fun h => (ih needed warnings).2 (h.resolve_left (not_le.mpr fits))⟩
      · next hin =>
        rw [entryName_entryAt all]
        dsimp only
        rw [nameFound_eq]
        dsimp only
        rw [List.filter_cons_of_pos (by simpa [ParfileEntry.inSet] using hin), List.map_cons, List.sum_cons]
        refine ⟨fun h => ((ih _ _).1 h.2).trans ?_, fun h => (ih _ _).2 (h.resolve_left (not_le.mpr fits))⟩
        rw [ParfileEntry.counted]
        push_cast
        rw [← add_assoc, ← add_assoc]

/-- An entry is counted once where it is needed, but for what is counted again and for an empty name. -/
theorem ParfileEntry.counted_add (e : ParfileEntry) :
    e.counted fsize hashes path nocaseMap + (if e.isBlank fsize hashes path nocaseMap then 1 else 0) =
      (if e.isNeeded fsize hashes path nocaseMap then 1 else 0) + e.surplus fsize hashes path nocaseMap := by
  rcases Nat.eq_zero_or_pos e.badChars with hzero | hpos
  · have hall : ∀ c ∈ nameChars e.name, (!foreign c) = true := fun c hc => by
      simpa using List.countP_eq_zero.mp hzero c hc
    have hrest : e.restName = (nameChars e.name).map lowerChar := by
      rw [restName, List.rtakeWhile_eq_self_iff.mpr hall]
    rw [counted, surplus, isNeeded, isBlank, if_pos hzero, hzero, hrest, List.isEmpty_map]
    generalize hgood : hasGoodMatch fsize hashes path nocaseMap e ((nameChars e.name).map lowerChar) = good
    generalize hchars : nameChars e.name = chars at hgood
    cases chars with
    | nil =>
      rw [List.map_nil] at hgood
      rw [hgood]
      cases good <;> rfl
    | cons c cs => cases good <;> rfl
  · have hchars : (nameChars e.name).isEmpty = false := by
      cases hnil : nameChars e.name with
      | nil => simp [badChars, hnil] at hpos
      | cons c cs => rfl
    have hcounted : e.badChars ≤ e.counted fsize hashes path nocaseMap := Nat.le_add_right _ _
    rw [surplus, isNeeded, isBlank, if_neg hpos.ne', hchars, decide_eq_true hpos]
    simp only [Bool.false_and, Bool.false_eq_true, if_false, Bool.true_or, if_true]
    omega

theorem sum_counted_add (es : List ParfileEntry) :
    (es.map (·.counted fsize hashes path nocaseMap)).sum + es.countP (·.isBlank fsize hashes path nocaseMap) =
      es.countP (·.isNeeded fsize hashes path nocaseMap) + (es.map (·.surplus fsize hashes path nocaseMap)).sum := by
  induction es with
  | nil => rfl
  | cons e es ih =>
    have he := @ParfileEntry.counted_add path nocaseMap fsize hashes e
    rw [List.map_cons, List.map_cons, List.sum_cons, List.sum_cons, List.countP_cons, List.countP_cons]
    omega

/-- The number of the entries of the set that are needed is what is returned, and it is no more than there are. -/
structure CountsNeeded (fsize : Text → Option Int64) (hashes : Text → List UInt8) (path : Text)
    (nocaseMap : List (Text × Text)) (es : List ParfileEntry) (r : Except ParfileStop Int) : Prop where
  count : r = .ok (es.countP (·.isNeeded fsize hashes path nocaseMap) : Nat)
  atMost : ∀ n, r = .ok n → n ≤ es.length

/-- On a well-formed list `parfile_check` counts what is needed exactly where it counts as many again as there are
    entries without a name, and every name is as long as an `int`. -/
theorem parfileCheck_counts_iff (cuts : Nat → Nat) (name path : Text) (bytes : List UInt8) (fsize : Text → Option Int64)
    (hashes : Text → List UInt8) (nocaseMap : List (Text × Text)) (h : SupportedHeader bytes)
    (hlength : 0x60 ≤ bytes.length) (hlist : WellFormed (numfilesOf bytes) (fileList bytes)) :
    CountsNeeded fsize hashes path nocaseMap ((listEntries (numfilesOf bytes) (fileList bytes)).filter (·.inSet))
        (parfileCheck cuts name ⟨fsize, fun file => .ok (hashes file)⟩ path nocaseMap bytes).1 ↔
      (∀ e ∈ listEntries (numfilesOf bytes) (fileList bytes), e.nameLength < 2 ^ 31) ∧
        (((listEntries (numfilesOf bytes) (fileList bytes)).filter (·.inSet)).map
          (·.surplus fsize hashes path nocaseMap)).sum =
        ((listEntries (numfilesOf bytes) (fileList bytes)).filter (·.inSet)).countP
          (·.isBlank fsize hashes path nocaseMap) := by
  obtain ⟨f, hf, hcheck⟩ :=
    @parfileCheck_of_le cuts name ⟨fsize, fun file => .ok (hashes file)⟩ path nocaseMap bytes h hlength
  obtain ⟨hcount, hstop⟩ := @parfileEntries_count cuts name path nocaseMap fsize hashes (numfilesOf bytes) 0 0 64 f le_rfl
    (hf ▸ hlist)
  rw [hcheck]
  rw [hf] at hcount hstop
  have hsum := @sum_counted_add path nocaseMap fsize hashes
    ((listEntries (numfilesOf bytes) (fileList bytes)).filter (·.inSet))
  by_cases hfits : ∀ e ∈ listEntries (numfilesOf bytes) (fileList bytes), e.nameLength < 2 ^ 31
  · rw [hcount hfits, zero_add, and_iff_right hfits]
    constructor
    · intro hneeded
      have := Int.natCast_inj.mp (Except.ok.inj hneeded.count)
      omega
    · intro hagain
      refine ⟨congrArg Except.ok (Int.natCast_inj.mpr (by omega)), fun n hn => ?_⟩
      have hle := ((listEntries (numfilesOf bytes) (fileList bytes)).filter (·.inSet)).countP_le_length
        (p := (·.isNeeded fsize hashes path nocaseMap))
      cases hn
      omega
  · refine iff_of_false (fun hneeded => ?_) fun hboth => hfits hboth.1
    push Not at hfits
    obtain ⟨stop, herror⟩ := hstop hfits
    rw [herror] at hneeded
    cases hneeded.count

theorem parfileCheck_counts_iff_sample :
    CountsNeeded (fun _ => none) (fun _ => [])
      [] [] ((listEntries (numfilesOf (sampleParHeader ++ sampleEntry 0x3a 1 [0x61, 0]))
        (fileList (sampleParHeader ++ sampleEntry 0x3a 1 [0x61, 0]))).filter (·.inSet))
        (parfileCheck (fun _ => 7) "a.par".toList ⟨fun _ => none, fun _ => .ok []⟩ [] []
          (sampleParHeader ++ sampleEntry 0x3a 1 [0x61, 0])).1 :=
  (parfileCheck_counts_iff (fun _ => 7) "a.par".toList [] (sampleParHeader ++ sampleEntry 0x3a 1 [0x61, 0]) (fun _ => none)
    (fun _ => []) [] ⟨by decide +kernel, by decide +kernel, by decide +kernel⟩ (by decide +kernel)
    ⟨by decide +kernel, by decide +kernel, by decide +kernel, trivial⟩).mpr ⟨by decide +kernel, by decide +kernel⟩

/-- A name with two characters that cannot be handled is counted twice. -/
theorem parfileCheck_counts_fails : ¬∀ (cuts : Nat → Nat) (name path : Text) (bytes : List UInt8)
    (fsize : Text → Option Int64) (hashes : Text → List UInt8) (nocaseMap : List (Text × Text)), SupportedHeader bytes →
    0x60 ≤ bytes.length → WellFormed (numfilesOf bytes) (fileList bytes) →
      CountsNeeded fsize hashes path nocaseMap ((listEntries (numfilesOf bytes) (fileList bytes)).filter (·.inSet))
        (parfileCheck cuts name ⟨fsize, fun file => .ok (hashes file)⟩ path nocaseMap bytes).1 := by
  intro h
  have htwo : (parfileCheck (fun _ => 4096) [] ⟨fun _ => none, fun _ => .ok []⟩ [] []
      (sampleParHeader ++ sampleEntry 0x3c 1 [0xe9, 0, 0xe9, 0])).1 = .ok 2 := by decide +kernel
  have hneeded := h (fun _ => 4096) [] [] (sampleParHeader ++ sampleEntry 0x3c 1 [0xe9, 0, 0xe9, 0]) (fun _ => none)
    (fun _ => []) [] ⟨by decide +kernel, by decide +kernel, by decide +kernel⟩ (by decide +kernel)
    ⟨by decide +kernel, by decide +kernel, by decide +kernel, trivial⟩
  exact absurd (hneeded.atMost 2 htwo) (by decide +kernel)

end Nget

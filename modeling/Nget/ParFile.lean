import Nget.Lib.Descriptor
import Nget.Par

/-! What is read from par files (`par.cc`, with `readfull` of `file.cc` and `CharBuffer` of `buffy.h`). A file that is
    open is a `Descriptor`; `cuts` says how the system cuts what it gives. A call that throws leaves nothing of its
    file. -/

namespace Nget
open CString

/-- A number of the file, its lowest byte first. -/
def leNat : List UInt8 → Nat
  | [] => 0
  | b :: bs => b.toNat + 256 * leNat bs

section
variable (cuts : Nat → Nat) (name : Text)

/-- `c_file::readfull`. -/
def readfull (len : Nat) (f : Descriptor UInt8) : Except Text (List UInt8 × Descriptor UInt8) :=
  match f.readExactly cuts len len with
  | (some data, f) => .ok (data, f)
  | (none, _) => .error ("readfull ".toList ++ name ++ ": unexpected EOF".toList)

/-- `c_file_fd::seek` from the start of the file. -/
def seekSet (offset : Int32) (f : Descriptor UInt8) : Except Text (Descriptor UInt8) :=
  if offset < 0 then .error ("seek ".toList ++ name ++ ": Invalid argument".toList)
  else .ok (f.seek offset.toInt.toNat)

/-! ### Par2 packets -/

def par2Header : List UInt8 := [0x50, 0x41, 0x52, 0x32, 0, 0x50, 0x4b, 0x54]

/-- The loop that digests a packet: what it digests, how much of the packet it does not get, and the file. Each read
    gives a byte, so as many rounds as the file has bytes are enough. -/
def readPacket : Nat → Nat → Descriptor UInt8 → List UInt8 × Nat × Descriptor UInt8
  | 0, pktlen, f => ([], pktlen, f)
  | rounds + 1, pktlen, f =>
    if pktlen = 0 then ([], 0, f)
    else
      let (buffer, f) := f.read cuts (min 8192 pktlen)
      if buffer.isEmpty then ([], pktlen, f)
      else
        let (more, left, f) := readPacket rounds (pktlen - buffer.length) f
        (buffer ++ more, left, f)

variable (md5 : List UInt8 → List UInt8)

/-- `par2file_check_packet`, and whether it returns zero. The places of the file are `int`s. -/
def par2fileCheckPacket (pos : Nat) (f : Descriptor UInt8) : Except Text (Bool × Descriptor UInt8) := do
  let f ← seekSet name (Int32.ofNat (pos + 8)) f
  let (pktlen, f) ← readfull cuts name 8 f
  let (pkthash, f) ← readfull cuts name 16 f
  let pktlen : UInt64 := UInt64.ofNat (leNat pktlen) - 32
  let (data, left, f) := readPacket cuts f.bytes.length pktlen.toNat f
  .ok (left = 0 && md5 data = pkthash, f)

/-- The loop that fills the buffer up to eight bytes; there is no value where the file ends before. Each read gives a
    byte, so eight rounds are enough. -/
def fillBuf : Nat → List UInt8 → Descriptor UInt8 → Option (List UInt8 × Descriptor UInt8)
  | rounds, buf, f =>
    if 8 ≤ buf.length then some (buf, f)
    else
      match rounds with
      | 0 => none
      | rounds + 1 =>
        let (c, f) := f.read cuts (8192 - buf.length)
        if c.isEmpty then none else fillBuf rounds (buf ++ c) f

/-- The loop over the `bufc` bytes of the buffer, from place `i` on. -/
def scanBuf (pos bufc : Nat) : Nat → List UInt8 → Descriptor UInt8 → Except Text (Option Nat × Descriptor UInt8)
  | _, [], f => .ok (none, f)
  | i, b :: buf, f =>
    if i < bufc - 7 then
      if (b :: buf).take 8 = par2Header then do
        let (good, f) ← par2fileCheckPacket cuts name md5 (pos + i) f
        if good then .ok (some (pos + i), f)
        else
          let f ← seekSet name (Int32.ofNat (pos + bufc)) f
          scanBuf pos bufc (i + 1) buf f
      else scanBuf pos bufc (i + 1) buf f
    else .ok (none, f)

/-- `par2file_find_packet` from the state in which a round starts. It gives the place and the file, no place where it
    returns -1, and no value at all when the fuel is used up. -/
def par2fileFindPacket : Nat → Nat → List UInt8 → Descriptor UInt8 → Option (Except Text (Option Nat × Descriptor UInt8))
  | 0, _, _, _ => none
  | fuel + 1, pos, buf, f =>
    match fillBuf cuts 8 buf f with
    | none => some (.ok (none, f))
    | some (buf, f) =>
      match scanBuf cuts name md5 pos buf.length 0 buf f with
      | .error e => some (.error e)
      | .ok (some p, f) => some (.ok (some p, f))
      | .ok (none, f) => par2fileFindPacket fuel (pos + (buf.length - 7)) (buf.drop (buf.length - 7)) f

/-- `par2file_get_sethash` on the bytes of a file; there is no hash where it returns false. -/
def par2fileGetSethash (fuel : Nat) (bytes : List UInt8) : Option (Option (List UInt8)) :=
  match par2fileFindPacket cuts name md5 fuel 0 [] { bytes } with
  | none => none
  | some (.error _) => some none
  | some (.ok (none, _)) => some none
  | some (.ok (some pos, f)) =>
    if Int32.ofNat pos < 0 then some none
    else
      match seekSet name (Int32.ofNat (pos + 32)) f with
      | .error _ => some none
      | .ok f =>
        match readfull cuts name 16 f with
        | .error _ => some none
        | .ok (setHash, _) => some (some setHash)

/-! ### Par files -/

/-- What is asked of the disk: the size of a file, where it has one, and its digest. -/
structure ParDisk where
  fsize : Text → Option Int64
  md5File : Text → Except Text (List UInt8)

/-- How `parfile_check` stops: it throws, it reads more bytes than its buffer has room for, or it looks at an index of
    the name that is not below the number of bytes read. What follows the last two is undefined. -/
inductive ParfileStop where
  | thrown (text : Text)
  | overrun (asked capacity : Nat)
  | past (index read : Nat)
deriving DecidableEq

/-- `readfull` into a buffer of so many bytes. -/
def readInto (len capacity : Nat) (f : Descriptor UInt8) : Except ParfileStop (List UInt8 × Descriptor UInt8) :=
  if capacity < len then .error (.overrun len capacity) else (readfull cuts name len f).mapError .thrown

/-- `CharBuffer::reserve`, with what is reserved. -/
def CharBuffer.reserve (s reserved : Int32) : Int32 := if reserved < s then s else reserved

def parHeader : List UInt8 := [0x50, 0x41, 0x52, 0, 0, 0, 0, 0]

/-- `parfile_check_header`: whether it returns zero, how often it sets the warning status, and the file. -/
def parfileCheckHeader (f : Descriptor UInt8) : Except ParfileStop (Bool × Nat × Descriptor UInt8) := do
  let (buf, f) ← readInto cuts name 8 8 f
  if buf ≠ parHeader then .ok (false, 0, f)
  else
    let (buf, f) ← readInto cuts name 8 8 f
    if buf.take 4 ≠ [0, 0, 1, 0] then .ok (false, 1, f) else .ok (true, 0, f)

/-- What `parfile_check` reads before the file list, into a buffer of 64 bytes: the number of files, and the file. -/
def readNumfiles (f : Descriptor UInt8) : Except ParfileStop (UInt32 × Descriptor UInt8) := do
  let (_, f) ← readInto cuts name (16 + 16 + 8) 64 f
  let (numfiles, f) ← readInto cuts name 4 4 f
  let (_, f) ← readInto cuts name (4 + 8) 64 f
  let (_, f) ← readInto cuts name 4 4 f
  let (_, f) ← readInto cuts name (4 + 8 + 8) 64 f
  .ok (UInt32.ofNat (leNat numfiles), f)

/-- An entry of the file list. -/
structure ParfileEntry where
  entrysize : UInt32
  status : UInt8
  filesize : UInt64
  fileHash : List UInt8
  name : List UInt8
deriving DecidableEq

/-- The reads of an entry, with what is reserved. -/
def readEntry (reserved : Int32) (f : Descriptor UInt8) :
    Except ParfileStop (ParfileEntry × Int32 × Descriptor UInt8) := do
  let (entrysize, f) ← readInto cuts name 4 4 f
  let entrysize := UInt32.ofNat (leNat entrysize)
  let (_, f) ← readInto cuts name 4 reserved.toInt.toNat f
  let (status, f) ← readInto cuts name 1 1 f
  let (_, f) ← readInto cuts name 7 reserved.toInt.toNat f
  let (filesize, f) ← readInto cuts name 8 8 f
  let (fileHash, f) ← readInto cuts name 16 16 f
  let (_, f) ← readInto cuts name 16 reserved.toInt.toNat f
  let reserved := CharBuffer.reserve (entrysize - 0x38).toInt32 reserved
  let (buf, f) ← readInto cuts name (entrysize - 0x38).toNat reserved.toInt.toNat f
  .ok (⟨entrysize, status.headD 0, UInt64.ofNat (leNat filesize), fileHash, buf⟩, reserved, f)

/-- The loop over the characters of a name, `count` of them from place `n` on: the name, and how many characters could
    not be handled. -/
def entryName (buf : List UInt8) : Nat → Nat → Text → Nat → Except ParfileStop (Text × Nat)
  | 0, _, filename, bad => .ok (filename, bad)
  | count + 1, n, filename, bad =>
    match buf[n * 2]? with
    | none => .error (.past (n * 2) buf.length)
    | some lo =>
      if 127 < lo then entryName buf count (n + 1) [] (bad + 1)
      else
        match buf[n * 2 + 1]? with
        | none => .error (.past (n * 2 + 1) buf.length)
        | some hi =>
          if hi ≠ 0 then entryName buf count (n + 1) [] (bad + 1)
          else entryName buf count (n + 1) (filename ++ [(Char.ofNat lo.toNat).toLower]) bad

variable (disk : ParDisk) (path : Text)

/-- The loop over the files of a name: whether one of them has the size and the digest. -/
def goodMatch (filesize : UInt64) (fileHash : List UInt8) : List Text → Except Text Bool
  | [] => .ok false
  | matching :: matchingfiles =>
    let matchedfilename := pathJoin path matching
    match disk.fsize matchedfilename with
    | none => goodMatch filesize fileHash matchingfiles
    | some actualFsize =>
      if actualFsize.toUInt64 ≠ filesize then goodMatch filesize fileHash matchingfiles
      else
        match disk.md5File matchedfilename with
        | .error e => .error e
        | .ok actualHash => if fileHash = actualHash then .ok true else goodMatch filesize fileHash matchingfiles

variable (nocaseMap : List (Text × Text))

/-- Whether an entry's file is found good; one without a name is not looked for. -/
def nameFound (entry : ParfileEntry) (filename : Text) : Except Text Bool :=
  if filename.isEmpty then .ok true
  else goodMatch disk path entry.filesize entry.fileHash ((nocaseMap.filter (·.1 = filename)).map (·.2))

/-- The loop over the file list, with what is needed so far, how often the warning status was set, and what is
    reserved. What is needed is an `int` in the source, which is the same while files and bad characters of names stay
    below 2^31. -/
def parfileEntries : Nat → Int → Nat → Int32 → Descriptor UInt8 → Except ParfileStop Int × Nat
  | 0, needed, warnings, _, _ => (.ok needed, warnings)
  | numfiles + 1, needed, warnings, reserved, f =>
    match readEntry cuts name reserved f with
    | .error e => (.error e, warnings)
    | .ok (entry, reserved, f) =>
      if entry.status &&& 1 = 0 then parfileEntries numfiles needed warnings reserved f
      else
        match entryName entry.name ((entry.entrysize - 0x38) / 2).toNat 0 [] 0 with
        | .error e => (.error e, warnings)
        | .ok (filename, bad) =>
          match nameFound disk path nocaseMap entry filename with
          | .error e => (.error (.thrown e), warnings + bad)
          | .ok found =>
            parfileEntries numfiles (needed + bad + if found then 0 else 1) (warnings + bad) reserved f

/-- `parfile_check` on the bytes of a file: what it returns, and how often it sets the warning status. -/
def parfileCheck (bytes : List UInt8) : Except ParfileStop Int × Nat :=
  match parfileCheckHeader cuts name { bytes } with
  | .error e => (.error e, 0)
  | .ok (false, warnings, _) => (.ok 1, warnings)
  | .ok (true, warnings, f) =>
    match readNumfiles cuts name f with
    | .error e => (.error e, warnings)
    | .ok (numfiles, f) => parfileEntries cuts name disk path nocaseMap numfiles.toNat 0 warnings 64 f

end
end Nget

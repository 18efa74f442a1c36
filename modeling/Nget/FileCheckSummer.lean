import Nget.Crc
import Nget.Md5

/-! The window that slides along a data file (`par2/filechecksummer.h`, `par2/filechecksummer.cpp`): the buffer that it is read
    through, its checksum, and the hashes of the file. What `Read` gives is a property of the file. -/

namespace Nget

/-- A `DiskFile` that is open: the object it is, what is in it, and whether so much can be read from an offset on. -/
structure DiskFile where
  object : Nat
  contents : List UInt8
  readable : Nat → Nat → Bool := fun _ _ => true

namespace DiskFile

def fileSize (diskfile : DiskFile) : Nat := diskfile.contents.length

def read (diskfile : DiskFile) (offset length : Nat) : Option (List UInt8) :=
  if diskfile.readable offset length then some ((diskfile.contents.drop offset).take length) else none

end DiskFile

/-- Data is copied into a buffer. -/
def poke (buffer : List UInt8) (position : Nat) (data : List UInt8) : List UInt8 :=
  buffer.take position ++ data ++ buffer.drop (position + data.length)

/-- The buffer has two blocks, so that block sizes are below 2^63 here. -/
structure FileCheckSummer where
  diskfile : DiskFile
  blocksize : Nat
  windowtable : UInt8 → UInt32
  windowmask : UInt32
  currentoffset : Nat := 0
  /-- What `new` left in it is overwritten by `Start`; an empty file is not scanned. -/
  buffer : List UInt8 := List.replicate (2 * blocksize) 0
  outpointer : Nat := 0
  inpointer : Nat := 0
  tailpointer : Nat := 0
  readoffset : Nat := 0
  checksum : UInt32 := 0
  contextfull : MD5Context := {}
  context16k : MD5Context := {}

namespace FileCheckSummer

def filesize (s : FileCheckSummer) : Nat := s.diskfile.fileSize

def blockLength (s : FileCheckSummer) : Nat := min s.blocksize (s.filesize - s.currentoffset)

def shortBlock (s : FileCheckSummer) : Bool := s.blockLength < s.blocksize

/-- The characters from `outpointer` on. -/
def window (s : FileCheckSummer) (length : Nat) : List UInt8 := (s.buffer.drop s.outpointer).take length

def updateHashes (offset : Nat) (data : List UInt8) (s : FileCheckSummer) : FileCheckSummer :=
  if 16384 ≤ offset then { s with contextfull := s.contextfull.update data }
  else if 16384 ≤ offset + data.length then
    let context16k := s.context16k.update (data.take (16384 - offset))
    { s with
      context16k
      contextfull := if 16384 < offset + data.length then context16k.update (data.drop (16384 - offset)) else context16k }
  else { s with context16k := s.context16k.update data }

/-- The rest of the buffer is blanked. -/
def blank (s : FileCheckSummer) : FileCheckSummer :=
  { s with buffer := poke s.buffer s.tailpointer (List.replicate (2 * s.blocksize - s.tailpointer) 0) }

/-- `Fill`; none where it returns false. -/
def fill (s : FileCheckSummer) : Option FileCheckSummer :=
  if s.filesize ≤ s.readoffset then some s
  else
    let want := min (s.filesize - s.readoffset) (2 * s.blocksize - s.tailpointer)
    if 0 < want then
      match s.diskfile.read s.readoffset want with
      | none => none
      | some data =>
        let s := { s with buffer := poke s.buffer s.tailpointer data }.updateHashes s.readoffset data
        some { s with readoffset := s.readoffset + want, tailpointer := s.tailpointer + want }.blank
    else some s.blank

/-- The checksum is computed anew. -/
def computeChecksum (s : FileCheckSummer) : FileCheckSummer :=
  { s with checksum := ~~~0 ^^^ crcUpdateBlock (~~~0) (s.buffer.take s.blocksize) }

def start (s : FileCheckSummer) : Option FileCheckSummer := do
  let s ← { s with currentoffset := 0, readoffset := 0, tailpointer := 0, outpointer := 0, inpointer := s.blocksize }.fill
  return s.computeChecksum

/-- The end of the file is reached. -/
def atEnd (s : FileCheckSummer) : FileCheckSummer :=
  { s with
    currentoffset := s.filesize
    tailpointer := 0
    outpointer := 0
    buffer := poke s.buffer 0 (List.replicate s.blocksize 0)
    checksum := 0 }

/-- What is in the window moves to the beginning of the buffer. -/
def moveBack (s : FileCheckSummer) : FileCheckSummer :=
  { s with
    buffer := poke s.buffer 0 (s.window s.blocksize)
    inpointer := s.outpointer
    outpointer := 0
    tailpointer := s.tailpointer - s.blocksize }

def step (s : FileCheckSummer) : Option FileCheckSummer :=
  if s.filesize ≤ s.currentoffset then none
  else if s.filesize ≤ s.currentoffset + 1 then some s.atEnd
  else
    let inch := s.buffer.getD s.inpointer 0
    let outch := s.buffer.getD s.outpointer 0
    let t := { s with
      currentoffset := s.currentoffset + 1
      inpointer := s.inpointer + 1
      outpointer := s.outpointer + 1
      checksum := s.windowmask ^^^ crcSlideChar (s.windowmask ^^^ s.checksum) inch outch s.windowtable }
    if t.outpointer < t.blocksize then some t else t.moveBack.fill

/-- The data that is kept by `Jump` moves to the beginning of the buffer. -/
def keep (s : FileCheckSummer) : FileCheckSummer :=
  let keep := s.tailpointer - s.outpointer
  { s with
    buffer := if 0 < keep then poke s.buffer 0 (s.window keep) else s.buffer
    tailpointer := keep
    outpointer := 0
    inpointer := s.blocksize }

def jump (distance : Nat) (s : FileCheckSummer) : Option FileCheckSummer :=
  if s.filesize ≤ s.currentoffset then none
  else if distance = 0 then none
  else if distance = 1 then s.step
  else
    let distance := min distance s.blocksize
    if s.filesize ≤ s.currentoffset + distance then some s.atEnd
    else do
      let t := { s with currentoffset := s.currentoffset + distance, outpointer := s.outpointer + distance }
      let t ← t.keep.fill
      return t.computeChecksum

/-- `GetFileHashes`: the hash of the file, and that of its first 16k. -/
def getFileHashes (s : FileCheckSummer) : List UInt8 × List UInt8 :=
  (if s.filesize < 16384 then s.context16k.final else s.contextfull.final, s.context16k.final)

def hash (s : FileCheckSummer) : List UInt8 := (MD5Context.update {} (s.window s.blocksize)).final

def shortChecksum (blocklength : Nat) (s : FileCheckSummer) : UInt32 :=
  let crc := crcUpdateBlock (~~~0) (s.window blocklength)
  (if blocklength < s.blocksize then crcUpdateZeros crc (s.blocksize - blocklength) else crc) ^^^ ~~~0

def shortHash (blocklength : Nat) (s : FileCheckSummer) : List UInt8 :=
  let context := MD5Context.update {} (s.window blocklength)
  (if blocklength < s.blocksize then context.updateZeros (s.blocksize - blocklength) else context).final

end FileCheckSummer
end Nget

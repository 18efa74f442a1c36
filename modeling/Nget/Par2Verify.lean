import Nget.CString
import Nget.FileCheckSummer
import Nget.Lib.SearchTree

/-! The verification of the files of a par2 set (`par2/par2repairer.cpp`, `par2/verificationhashtable.h`,
    `par2/par2repairersourcefile.cpp`, `par2/datablock.h`), from the packets that were loaded to the result of `Process`.
    Pointers to source files are their places in `sourcefiles`, pointers to disk files their places in `diskFileMap`. The source has
    one object for a file id that is listed twice, and no blocks behind the iterators of a file that is not recoverable: what is
    said here is about sets which list each file once, and about scans of those whose files are all recoverable. Sizes are so that
    the size of a file and of a block together stay below 2^64. -/

namespace Nget.Par2

/-! ### Packets -/

/-- `MainPacket::Load` takes no block size of 0, at most 32768 files, and not more recoverable ones than there are. -/
structure MainPacket where
  blocksize : Nat
  fileids : List (List UInt8)
  recoverablefilecount : Nat
  blocksize_pos : 0 < blocksize
  totalfilecount_le : fileids.length ≤ 32768
  recoverablefilecount_le : recoverablefilecount ≤ fileids.length

structure DescriptionPacket where
  filename : Text
  fileSize : Nat
  hashFull : List UInt8
  hash16k : List UInt8

/-- `FILEVERIFICATIONENTRY`. -/
structure VerificationEntry where
  hash : List UInt8
  crc : UInt32

/-- `VerificationPacket::Load` takes one to 32768 entries. -/
structure VerificationPacket where
  entries : List VerificationEntry
  blockcount_pos : 0 < entries.length
  blockcount_le : entries.length ≤ 32768

def VerificationPacket.blockCount (verificationpacket : VerificationPacket) : Nat := verificationpacket.entries.length

/-- What was loaded: `mainpacket`, the packets of `sourcefilemap`, and the exponents and block sizes of `recoverypacketmap`. -/
structure Packets where
  mainpacket : Option MainPacket
  sourcefilemap : List (List UInt8 × Option DescriptionPacket × Option VerificationPacket)
  recoverypacketmap : List (UInt32 × Nat)

/-! ### Source files -/

structure DataBlock where
  diskfile : Option Nat := none
  offset : Nat := 0
  length : Nat := 0

namespace DataBlock

def setLocation (diskfile offset : Nat) (datablock : DataBlock) :
    DataBlock := { datablock with diskfile := some diskfile, offset }

def isSet (datablock : DataBlock) : Bool := datablock.diskfile.isSome

end DataBlock

/-- `Par2RepairerSourceFile`. -/
structure SourceFile where
  descriptionpacket : DescriptionPacket
  verificationpacket : Option VerificationPacket
  targetfilename : Text := []
  sourceblocks : List DataBlock := []
  targetexists : Bool := false
  targetfile : Option Nat := none
  completefile : Option Nat := none

def hexDigit (n : Nat) : Char := Char.ofNat (if n < 10 then n + '0'.toNat else n - 10 + 'A'.toNat)

def translateFilename (filename : Text) : Text :=
  filename.flatMap fun ch =>
    if ch.toNat < 32 ∨ ch = '/' then [hexDigit (ch.toNat / 16), hexDigit (ch.toNat % 16)] else [ch]

/-- What stands after the last `ch`. -/
def afterLast (ch : Char) (s : Text) : Text := (s.reverse.takeWhile (· ≠ ch)).reverse

/-- `SplitFilename`: the path and the name. -/
def splitFilename (filename : Text) : Text × Text :=
  let ch := if '/' ∈ filename then '/' else '\\'
  if ch ∈ filename then
    let name := afterLast ch filename
    (filename.take (filename.length - name.length), name)
  else ("./".toList, filename)

namespace SourceFile

def computeTargetFileName (path : Text) (sourcefile : SourceFile) : SourceFile :=
  let filename := translateFilename sourcefile.descriptionpacket.filename
  { sourcefile with targetfilename := path ++ afterLast (if '\\' ∈ filename then '\\' else '/') filename }

/-- `SetBlockCount`. -/
def blockCount (blocksize : Nat) (sourcefile : SourceFile) : UInt32 :=
  UInt32.ofNat ((sourcefile.descriptionpacket.fileSize + blocksize - 1) / blocksize)

def setBlocks (blocksize : Nat) (sourcefile : SourceFile) : SourceFile :=
  { sourcefile with
    sourceblocks := (List.range (sourcefile.blockCount blocksize).toNat).map fun blocknumber =>
      { length := min blocksize (sourcefile.descriptionpacket.fileSize - blocknumber * blocksize) } }

end SourceFile

/-- `CheckPacketConsistency`: whether a source file is kept. -/
def consistent (blocksize : Nat) : Option DescriptionPacket × Option VerificationPacket → Bool
  | (none, _) => false
  | (some _, none) => true
  | (some descriptionpacket, some verificationpacket) =>
    (descriptionpacket.fileSize + blocksize - 1) / blocksize = verificationpacket.blockCount

/-- An entry of `CreateSourceFileList`. -/
def createSourceFile (packets : Packets) (blocksize : Nat) (searchpath : Text) (fileid : List UInt8) : Option SourceFile := do
  let (_, found) ← packets.sourcefilemap.find? (·.1 = fileid)
  let descriptionpacket ← found.1
  if consistent blocksize found then
    some (SourceFile.computeTargetFileName searchpath { descriptionpacket, verificationpacket := found.2 })
  else none

/-! ### The hash table -/

structure VerificationHashEntry where
  sourcefile : Nat
  blocknumber : Nat
  crc : UInt32
  hash : List UInt8
deriving DecidableEq

namespace VerificationHashEntry

def firstBlock (entry : VerificationHashEntry) : Bool := entry.blocknumber = 0

/-- What the operators compare: checksums, and hashes from the last byte down. -/
def keyOf (crc : UInt32) (hash : List UInt8) : ℕ ×ₗ List ℕ := toLex (crc.toNat, hash.reverse.map UInt8.toNat)

def key (entry : VerificationHashEntry) : ℕ ×ₗ List ℕ := keyOf entry.crc entry.hash

end VerificationHashEntry

/-- `SetLimit`, where `hashmask` is doubled eight times at most. -/
def hashmask (limit : UInt32) : UInt32 :=
  (fun mask => if mask < limit ∧ mask < 65536 then mask <<< 1 else mask)^[8] 256 - 1

structure HashTable where
  hashmask : UInt32
  buckets : List (SearchTree VerificationHashEntry)

namespace HashTable

def setLimit (limit : UInt32) : HashTable := ⟨Par2.hashmask limit, List.replicate ((Par2.hashmask limit).toNat + 1) .leaf⟩

def insert (table : HashTable) (entry : VerificationHashEntry) : HashTable :=
  { table with
    buckets := table.buckets.modify (entry.crc &&& table.hashmask).toNat
      (·.insert (fun e => SearchTree.side entry.key e.key) entry) }

/-- The entries with a checksum and a hash: a search by the checksum, and from there one by both. -/
def lookup (table : HashTable) (crc : UInt32) (hash : List UInt8) : List VerificationHashEntry :=
  let nextentry := (table.buckets.getD (crc &&& table.hashmask).toNat .leaf).search fun e =>
    SearchTree.side crc.toNat e.crc.toNat
  (nextentry.search fun e => SearchTree.side (VerificationHashEntry.keyOf crc hash) e.key).chain

end HashTable

/-! ### The repairer -/

structure Repairer where
  mainpacket : MainPacket
  /-- The size of `recoverypacketmap`. -/
  recoverypackets : Nat
  sourcefiles : List (Option SourceFile)
  sourceblockcount : UInt32 := 0
  blocksallocated : Bool := false
  verificationhashtable : HashTable := ⟨0, []⟩
  blockverifiable : Bool := false
  unverifiablesourcefiles : List Nat := []
  diskFileMap : List Text
  availableblockcount : UInt32 := 0
  missingblockcount : UInt32 := 0
  completefilecount : Nat := 0
  renamedfilecount : Nat := 0
  damagedfilecount : Nat := 0
  missingfilecount : Nat := 0

namespace Repairer

def blocksize (s : Repairer) : Nat := s.mainpacket.blocksize

def file? (s : Repairer) (sourcefile : Nat) : Option SourceFile := (s.sourcefiles[sourcefile]?).join

def modifyFile (sourcefile : Nat) (f : SourceFile → SourceFile) (s : Repairer) : Repairer :=
  { s with sourcefiles := s.sourcefiles.modify sourcefile (·.map f) }

/-- The entries of a source file that `Load` makes. -/
def entries (sourcefile : Nat) (file : SourceFile) : List VerificationHashEntry :=
  match file.verificationpacket with
  | none => []
  | some packet => packet.entries.mapIdx fun blocknumber entry => ⟨sourcefile, blocknumber, entry.crc, entry.hash⟩

/-- `Next`: the entry of the next block of the file. -/
def next (s : Repairer) (entry : VerificationHashEntry) : Option VerificationHashEntry :=
  (s.file? entry.sourcefile).bind fun file => (entries entry.sourcefile file)[entry.blocknumber + 1]?

/-- `GetDataBlock`. A file that is not recoverable has no blocks. -/
def block (s : Repairer) (entry : VerificationHashEntry) : DataBlock :=
  ((s.file? entry.sourcefile).bind fun file => file.sourceblocks[entry.blocknumber]?).getD {}

def setBlock (diskfile offset : Nat) (entry : VerificationHashEntry) : Repairer → Repairer :=
  modifyFile entry.sourcefile fun file =>
    { file with sourceblocks := file.sourceblocks.modify entry.blocknumber (·.setLocation diskfile offset) }

def allocateSourceBlocks (s : Repairer) : Repairer :=
  let recoverable := s.sourcefiles.take s.mainpacket.recoverablefilecount
  let sourceblockcount := (recoverable.map fun file => (file.map (·.blockCount s.blocksize)).getD 0).sum
  if 0 < sourceblockcount then
    { s with
      sourceblockcount
      sourcefiles := s.sourcefiles.mapIdx fun filenumber file =>
        if filenumber < s.mainpacket.recoverablefilecount then file.map (·.setBlocks s.blocksize) else file
      blocksallocated := true }
  else { s with sourceblockcount }

/-- The source files that are there, with their places. -/
def present (s : Repairer) : List (Nat × SourceFile) :=
  s.sourcefiles.zipIdx.filterMap fun file => file.1.map (file.2, ·)

def prepareVerificationHashTable (s : Repairer) : Repairer :=
  let verifiable := s.present.filter (·.2.verificationpacket.isSome)
  { s with
    verificationhashtable := (verifiable.flatMap fun file => entries file.1 file.2).foldl .insert (.setLimit s.sourceblockcount)
    blockverifiable := !verifiable.isEmpty
    unverifiablesourcefiles := (s.present.filter (·.2.verificationpacket.isNone)).map (·.1) }

/-! ### Finding a match -/

section
variable (s : Repairer) (checksummer : FileCheckSummer)

def isSet (entry : VerificationHashEntry) : Bool := (s.block entry).isSet

/-- Close to the end of the file, a block that is not as long as what is left. -/
def wrongLength (entry : VerificationHashEntry) : Bool :=
  checksummer.shortBlock && checksummer.blockLength != (s.block entry).length

/-- Whether the data is that of the entry which is expected next. -/
def suggestedMatches (entry : VerificationHashEntry) : Bool :=
  match s.next entry with
  | none =>
    let length := (s.block entry).length
    checksummer.shortChecksum length = entry.crc && checksummer.shortHash length = entry.hash
  | some _ => !s.isSet entry && entry.crc = checksummer.checksum && checksummer.hash = entry.hash

/-- The match when there is one entry with the checksum and the hash, and whether it was a duplicate. -/
def oneMatch (suggestedentry : Option VerificationHashEntry) (entry : VerificationHashEntry) :
    Option VerificationHashEntry × Bool :=
  if ((s.file? entry.sourcefile).bind (·.completefile)).isSome then (none, true)
  else if s.wrongLength checksummer entry then (none, false)
  else if entry.firstBlock && checksummer.currentoffset = 0 then (some entry, false)
  else if suggestedentry = some entry then
    if s.isSet entry && (s.block entry).diskfile = some checksummer.diskfile.object then (none, true) else (some entry, false)
  else if s.isSet entry then (none, true)
  else (some entry, false)

def usable (entry : VerificationHashEntry) : Bool := !(s.isSet entry || s.wrongLength checksummer entry)

/-- The match when there are many: an entry that can be used, of the preferred source file if it has one. -/
def manyMatches (sourcefile : Option Nat) (entries : List VerificationHashEntry) : Option VerificationHashEntry × Bool :=
  match entries.find? fun entry => some entry.sourcefile = sourcefile && s.usable checksummer entry with
  | some entry => (some entry, false)
  | none =>
    let nextentry := entries.find? (s.usable checksummer)
    (nextentry, nextentry.isNone)

/-- `FindMatch`: the entry, and whether the match is a duplicate. -/
def findMatch (suggestedentry : Option VerificationHashEntry) (sourcefile : Option Nat) : Option VerificationHashEntry × Bool :=
  match suggestedentry.filter (s.suggestedMatches checksummer) with
  | some entry => (some entry, false)
  | none =>
    match s.verificationhashtable.lookup checksummer.checksum checksummer.hash with
    | [] => (none, false)
    | [entry] => s.oneMatch checksummer suggestedentry entry
    | entries => s.manyMatches checksummer sourcefile entries

end
end Repairer

/-! ### Scanning a data file -/

inductive MatchType where
  | eNoMatch
  | ePartialMatch
  | eFullMatch
deriving DecidableEq

/-- What a turn of `ScanDataFile` reads and changes. -/
structure Scan where
  repairer : Repairer
  checksummer : FileCheckSummer
  sourcefile : Option Nat
  matchtype : MatchType := .eFullMatch
  count : UInt32 := 0
  nextentry : Option VerificationHashEntry := none

namespace Scan

/-- What a match does, before the jump over its block. -/
def record (entry : VerificationHashEntry) (x : Scan) : Scan :=
  let offset := x.checksummer.currentoffset
  { x with
    repairer := if x.repairer.blocksallocated then x.repairer.setBlock x.checksummer.diskfile.object offset entry
      else x.repairer
    sourcefile := if x.count = 0 then some entry.sourcefile else x.sourcefile
    matchtype :=
      if x.count = 0 then if !entry.firstBlock || offset ≠ 0 then .ePartialMatch else x.matchtype
      else if some entry ≠ x.nextentry then .ePartialMatch else x.matchtype
    count := x.count + 1
    nextentry := x.repairer.next entry }

/-- The window moves on; where it cannot, the scan fails with what was recorded. -/
def advance (moved : Option FileCheckSummer) (x : Scan) : Except Repairer Scan :=
  match moved with
  | some checksummer => .ok { x with checksummer }
  | none => .error x.repairer

/-- A turn of the loop. -/
def turn (x : Scan) : Except Repairer Scan :=
  match x.repairer.findMatch x.checksummer x.nextentry x.sourcefile with
  | (some entry, _) => (x.record entry).advance (x.checksummer.jump (x.repairer.block entry).length)
  | (none, true) =>
    { x with matchtype := .ePartialMatch, nextentry := none }.advance (x.checksummer.jump x.repairer.blocksize)
  | (none, false) => { x with matchtype := .ePartialMatch, nextentry := none }.advance x.checksummer.step

/-- The loop of `ScanDataFile`. The window moves on in every turn, so there are no more turns than the file has characters. -/
def loop : Nat → Scan → Except Repairer Scan
  | 0, x => .ok x
  | turns + 1, x =>
    if x.checksummer.currentoffset < x.checksummer.filesize then
      match x.turn with
      | .error repairer => .error repairer
      | .ok y => loop turns y
    else .ok x

end Scan

/-- Two MD5 hashes: of a whole file, and of its first 16k. -/
structure FileHashes where
  hashfull : List UInt8
  hash16k : List UInt8

/-- Whether a file of a size and with these hashes is the one that is described. -/
def DescriptionPacket.describes (descriptionpacket : DescriptionPacket) (fileSize : Nat) (hashes : FileHashes) : Bool :=
  fileSize = descriptionpacket.fileSize && hashes.hash16k = descriptionpacket.hash16k &&
    hashes.hashfull = descriptionpacket.hashFull

namespace Repairer

/-- The window over a file, with the tables of `ComputeWindowTable`. -/
def checksummer (s : Repairer) (diskfile : DiskFile) : FileCheckSummer where
  diskfile
  blocksize := s.blocksize
  windowtable := generateWindowTable s.blocksize
  windowmask := computeWindowMask s.blocksize

/-- The end of `ScanDataFile`: a match that still might be perfect is confirmed by the hashes, the size and the number of blocks. -/
def confirm (x : Scan) (hashes : FileHashes) : MatchType :=
  if 0 < x.count then
    match x.sourcefile.bind x.repairer.file? with
    | none => .ePartialMatch
    | some file =>
      if x.matchtype ≠ .eFullMatch || file.verificationpacket.all (fun packet => x.count ≠ UInt32.ofNat packet.blockCount) ||
          !file.descriptionpacket.describes x.checksummer.diskfile.fileSize hashes then .ePartialMatch
      else x.matchtype
  else .eNoMatch

/-- `ScanDataFile`: the source file that was matched, the type of the match and the hashes. Of an empty file it gives no hashes, and
    the caller has what was in its variables. -/
def scanDataFile (uninitialised : FileHashes) (diskfile : DiskFile) (sourcefile : Option Nat) (s : Repairer) :
    Except Repairer (Repairer × Option Nat × MatchType × FileHashes) :=
  if diskfile.fileSize = 0 then .ok (s, sourcefile, .eNoMatch, uninitialised)
  else
    match (s.checksummer diskfile).start with
    | none => .error s
    | some checksummer =>
      match Scan.loop diskfile.fileSize { repairer := s, checksummer, sourcefile } with
      | .error s => .error s
      | .ok x =>
        let hashes := ⟨x.checksummer.getFileHashes.1, x.checksummer.getFileHashes.2⟩
        .ok (x.repairer, x.sourcefile, confirm x hashes, hashes)

/-! ### Verifying a data file -/

/-- The loop of `VerifyDataFile` that hashes a whole file, with what stands in `hash16k`. -/
def hashFileLoop (diskfile : DiskFile) (buffersize : Nat) : Nat → Nat → MD5Context × List UInt8 →
    Option (MD5Context × List UInt8)
  | 0, _, hashes => some hashes
  | reads + 1, offset, (context, hash16k) =>
    if offset < diskfile.fileSize then
      let want := min buffersize (diskfile.fileSize - offset)
      match diskfile.read offset want with
      | none => none
      | some buffer =>
        if offset < 16384 && 16384 ≤ offset + want then
          let context := context.update (buffer.take (16384 - offset))
          hashFileLoop diskfile buffersize reads (offset + want)
            (if 16384 < offset + want then context.update (buffer.drop (16384 - offset)) else context, context.final)
        else hashFileLoop diskfile buffersize reads (offset + want) (context.update buffer, hash16k)
    else some (context, hash16k)

/-- The hashes that are compared of a file which was not scanned. Where `hashfull` is computed, the code declares it a second time: the
    one that is compared keeps what stood in it. -/
def hashFile (uninitialised : FileHashes) (diskfile : DiskFile) (s : Repairer) : Option FileHashes := do
  let filesize := diskfile.fileSize
  let (context, hash16k) ← hashFileLoop diskfile (min (1024 * 1024) (min s.blocksize filesize)) filesize 0
    ({}, uninitialised.hash16k)
  let inner := context.final
  return ⟨uninitialised.hashfull, if filesize < 16384 then inner else hash16k⟩

/-- A perfect match of a whole file is recorded. -/
def setComplete (diskfile : Nat) (sourcefile : Nat) : Repairer → Repairer :=
  modifyFile sourcefile fun file => { file with completefile := some diskfile }

/-- All blocks of the source file are allocated to the file. -/
def locateAll (diskfile blocksize : Nat) (file : SourceFile) : SourceFile :=
  { file with
    sourceblocks := file.sourceblocks.mapIdx fun blocknumber datablock =>
      if blocknumber * blocksize < file.descriptionpacket.fileSize then
        { datablock.setLocation diskfile (blocknumber * blocksize) with
          length := min blocksize (file.descriptionpacket.fileSize - blocknumber * blocksize) }
      else datablock }

/-- The hash values of the source files that cannot be verified block by block are compared. -/
def matchUnverifiable (diskfile : DiskFile) (hashes : FileHashes) (s : Repairer) : Repairer :=
  match s.unverifiablesourcefiles.find? fun i => (s.file? i).any fun file =>
      file.completefile.isNone && file.descriptionpacket.describes diskfile.fileSize hashes with
  | none => s
  | some i =>
    let s := s.setComplete diskfile.object i
    if s.blocksallocated then s.modifyFile i (locateAll diskfile.object s.blocksize) else s

/-- `VerifyDataFile`, and whether it succeeds. -/
def verifyDataFile (uninitialised : FileHashes) (diskfile : DiskFile) (sourcefile : Option Nat) (s : Repairer) :
    Repairer × Bool :=
  if s.blockverifiable then
    match s.scanDataFile uninitialised diskfile sourcefile with
    | .error s => (s, false)
    | .ok (s, _, .ePartialMatch, _) => (s, true)
    | .ok (s, none, .eFullMatch, _) => (s, true)
    | .ok (s, some i, .eFullMatch, _) => (s.setComplete diskfile.object i, true)
    | .ok (s, _, .eNoMatch, hashes) => (s.matchUnverifiable diskfile hashes, true)
  else if s.unverifiablesourcefiles = [] then (s, true)
  else
    match s.hashFile uninitialised diskfile with
    | none => (s, false)
    | some hashes => (s.matchUnverifiable diskfile hashes, true)

/-! ### Results -/

/-- How a source file is counted. -/
inductive FileStatus where
  | complete
  | renamed
  | damaged
  | missing
deriving DecidableEq

def status : Option SourceFile → FileStatus
  | none => .missing
  | some file =>
    if file.completefile.isSome then if file.completefile = file.targetfile then .complete else .renamed
    else if file.targetexists then .damaged
    else .missing

/-- How many blocks of a source file are available. -/
def availableBlocks (blocksize : Nat) : Option SourceFile → UInt32
  | none => 0
  | some file =>
    if file.completefile.isSome then file.blockCount blocksize else UInt32.ofNat (file.sourceblocks.countP (·.isSet))

def updateVerificationResults (s : Repairer) : Repairer :=
  let availableblockcount := (s.sourcefiles.map (availableBlocks s.blocksize)).sum
  { s with
    availableblockcount
    missingblockcount := s.sourceblockcount - availableblockcount
    completefilecount := s.sourcefiles.countP (status · = .complete)
    renamedfilecount := s.sourcefiles.countP (status · = .renamed)
    damagedfilecount := s.sourcefiles.countP (status · = .damaged)
    missingfilecount := s.sourcefiles.countP (status · = .missing) }

/-- `CheckVerificationResults`: no repair is needed, or it is possible. -/
def checkVerificationResults (s : Repairer) : Bool :=
  if s.completefilecount < s.mainpacket.recoverablefilecount || 0 < s.renamedfilecount || 0 < s.damagedfilecount ||
      0 < s.missingfilecount then s.missingblockcount.toNat ≤ s.recoverypackets
  else true

end Repairer

/-! ### Verifying all files -/

/-- The file system, and what stands in the hashes of `VerifyDataFile` before it sets them; a file is verified once at most. -/
structure Outside where
  disk : Text → Option DiskFile
  getCanonicalPathname : Text → Text := id
  uninitialised : Text → FileHashes := fun _ => ⟨[], []⟩

namespace Repairer

section
variable (o : Outside)

/-- A file is opened. The object that it becomes is the next of `diskFileMap`. -/
def openFile (s : Repairer) (filename : Text) : Option DiskFile :=
  (o.disk filename).map fun diskfile => { diskfile with object := s.diskFileMap.length }

def insertDiskFile (filename : Text) (s : Repairer) : Repairer := { s with diskFileMap := s.diskFileMap ++ [filename] }

def setTarget (diskfile : Nat) (sourcefile : Nat) : Repairer → Repairer :=
  modifyFile sourcefile fun file => { file with targetexists := true, targetfile := some diskfile }

/-- The loop of `VerifySourceFiles` over the sorted files. -/
def verifySorted : List (Nat × SourceFile) → Repairer → Bool → Repairer × Bool
  | [], s, finalresult => (s, finalresult)
  | (i, file) :: files, s, finalresult =>
    let filename := file.targetfilename
    if filename ∈ s.diskFileMap then (s, false)
    else
      match s.openFile o filename with
      | none => verifySorted files s finalresult
      | some diskfile =>
        let s := (s.setTarget diskfile.object i).insertDiskFile filename
        let (s, verified) := s.verifyDataFile (o.uninitialised filename) diskfile (some i)
        verifySorted files s.updateVerificationResults (finalresult && verified)

/-- `SortSourceFilesByFileName`. -/
def sortedFiles (s : Repairer) : List (Nat × SourceFile) :=
  s.present.mergeSort fun low high => !decide (high.2.targetfilename < low.2.targetfilename)

/-- `VerifySourceFiles`. Its `filenumber` stays 0, so that a source file without details always counts as recoverable. -/
def verifySourceFiles (s : Repairer) : Repairer × Bool :=
  if s.sourcefiles.any (·.isNone) && 0 < s.mainpacket.recoverablefilecount then (s, false)
  else s.verifySorted o s.sortedFiles true

def verifyExtraFile (s : Repairer) (filename : Text) : Repairer :=
  if filename ∈ s.diskFileMap then s
  else
    match s.openFile o filename with
    | none => s
    | some diskfile => ((s.insertDiskFile filename).verifyDataFile (o.uninitialised filename) diskfile none).1.updateVerificationResults

/-- Files are scanned while too few source files are complete. -/
def verifyExtraWhile (enough : Nat) (filenames : List Text) (s : Repairer) : Repairer :=
  filenames.foldl (fun s filename => if s.completefilecount < enough then s.verifyExtraFile o filename else s) s

/-- The names that `equal_range` gives for a key. -/
def equalRange (extrafilenamemap : List (Text × Text)) (key : Text) : List Text :=
  (extrafilenamemap.filter (·.1 = key)).map (·.2)

/-- The files whose names are like that of a source file which is not complete. -/
def verifyLike (extrafilenamemap : List (Text × Text)) (s : Repairer) (sourcefile : Nat) : Repairer :=
  match s.file? sourcefile with
  | none => s
  | some file =>
    if s.completefilecount < s.sourcefiles.length && file.completefile.isNone then
      let (path, name) := splitFilename file.targetfilename
      s.verifyExtraWhile o s.sourcefiles.length ((equalRange extrafilenamemap (name.map Char.toLower)).map (path ++ ·))
    else s

def verifyExtraFiles (searchpath : Text) (extrafiles : List Text) (extrafilenamemap : List (Text × Text)) (s : Repairer) :
    Repairer :=
  let others := extrafiles.filter fun filename => ¬(".par2".toList <:+: filename ∨ ".PAR2".toList <:+: filename)
  let s := s.verifyExtraWhile o s.mainpacket.recoverablefilecount (others.map o.getCanonicalPathname)
  let s := (List.range s.sourcefiles.length).foldl (verifyLike o extrafilenamemap) s
  s.verifyExtraWhile o s.sourcefiles.length ((equalRange extrafilenamemap "noname".toList).map (searchpath ++ ·))

end
end Repairer

/-! ### The whole run -/

inductive Result where
  | eSuccess
  | eRepairPossible
  | eRepairNotPossible
  | eInsufficientCriticalData
  | eRepairFailed
  | eFileIOError
deriving DecidableEq

/-- The repairer before any file is verified. `loaded` are the par2 files whose packets were taken. -/
def prepare (packets : Packets) (mainpacket : MainPacket) (searchpath : Text) (loaded : List Text) : Repairer :=
  (Repairer.allocateSourceBlocks
    { mainpacket
      recoverypackets := (packets.recoverypacketmap.filter (·.2 = mainpacket.blocksize)).length
      sourcefiles := mainpacket.fileids.map (createSourceFile packets mainpacket.blocksize searchpath)
      diskFileMap := loaded }).prepareVerificationHashTable

/-- The result, once all files that are wanted have been verified. -/
def Repairer.result (dorepair : Bool) (s : Repairer) : Result :=
  if !s.checkVerificationResults then .eRepairNotPossible
  else if s.completefilecount < s.mainpacket.recoverablefilecount then if dorepair then .eRepairFailed else .eRepairPossible
  else .eSuccess

/-- `CommandLine::CommandLine`: files that are not there, or empty, are ignored. -/
def extraFiles (o : Outside) (filenames : List Text) : List Text :=
  filenames.filter fun filename => (o.disk filename).any (0 < ·.fileSize)

/-- `Process`, after the packets were loaded, with the repairer that it leaves. -/
def process (o : Outside) (packets : Packets) (searchpath : Text) (loaded filenames : List Text)
    (extrafilenamemap : List (Text × Text)) (dorepair : Bool) : Option Repairer × Result :=
  match packets.mainpacket with
  | none => (none, .eInsufficientCriticalData)
  | some mainpacket =>
    match (prepare packets mainpacket searchpath loaded).verifySourceFiles o with
    | (s, false) => (some s, .eFileIOError)
    | (s, true) =>
      let s :=
        if s.completefilecount < s.mainpacket.recoverablefilecount then
          s.verifyExtraFiles o searchpath (extraFiles o filenames) extrafilenamemap
        else s
      let s := s.updateVerificationResults
      (some s, s.result dorepair)

end Nget.Par2

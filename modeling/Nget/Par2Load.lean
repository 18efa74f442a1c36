import Nget.Par2Verify

/-! The packets of par2 files (`par2/par2repairer.cpp`, `par2/par2fileformat.h`, `par2/criticalpacket.cpp` and the `Load` of each
    kind of packet): how they are found in a file, what is taken from them, and which files are read. Offsets are 64 bits wide. -/

namespace Nget.Par2

/-! ### The format -/

/-- A little endian number. -/
def littleEndian (bytes : List UInt8) : Nat := bytes.foldr (fun byte n => byte.toNat + 256 * n) 0

/-- A field of a record: its bytes from an offset on. -/
def field (offset length : Nat) (bytes : List UInt8) : List UInt8 := (bytes.drop offset).take length

def packetMagic : List UInt8 := [0x50, 0x41, 0x52, 0x32, 0, 0x50, 0x4b, 0x54]

/-- `PAR 2.0`, and the eight characters that tell the kinds of packets apart. -/
def packetType (kind : List UInt8) : List UInt8 := [0x50, 0x41, 0x52, 0x20, 0x32, 0x2e, 0x30, 0] ++ kind

/-- `IFSC`. -/
def fileverificationpacketType : List UInt8 := packetType [0x49, 0x46, 0x53, 0x43, 0, 0, 0, 0]

/-- `FileDesc`. -/
def filedescriptionpacketType : List UInt8 := packetType [0x46, 0x69, 0x6c, 0x65, 0x44, 0x65, 0x73, 0x63]

/-- `Main`. -/
def mainpacketType : List UInt8 := packetType [0x4d, 0x61, 0x69, 0x6e, 0, 0, 0, 0]

/-- `RecvSlic`. -/
def recoveryblockpacketType : List UInt8 := packetType [0x52, 0x65, 0x63, 0x76, 0x53, 0x6c, 0x69, 0x63]

/-- `Creator`. -/
def creatorpacketType : List UInt8 := packetType [0x43, 0x72, 0x65, 0x61, 0x74, 0x6f, 0x72, 0]

/-- `PACKET_HEADER`. -/
structure PacketHeader where
  magic : List UInt8
  length : Nat
  hash : List UInt8
  setid : List UInt8
  type : List UInt8

namespace PacketHeader

/-- `sizeof(PACKET_HEADER)`. -/
def size : Nat := 64

def ofBytes (bytes : List UInt8) : PacketHeader where
  magic := field 0 8 bytes
  length := littleEndian (field 8 8 bytes)
  hash := field 16 16 bytes
  setid := field 32 16 bytes
  type := field 48 16 bytes

/-- Where the packet at an offset ends, in 64 bits. -/
def stop (offset : Nat) (header : PacketHeader) : Nat := (offset + header.length) % 2 ^ 64

end PacketHeader

/-- `FinishPacket`: the set is stored, and the hash of what follows the hash. -/
def finishPacket (setid packetdata : List UInt8) : List UInt8 :=
  let packetdata := poke packetdata 32 setid
  poke packetdata 16 ((({} : MD5Context).update (packetdata.drop 32)).final)

/-! ### Loading packets -/

section
variable (diskfile : DiskFile) (offset : Nat) (header : PacketHeader)

/-- The packet behind its header. -/
def readBody : Option (List UInt8) := diskfile.read (offset + PacketHeader.size) (header.length - PacketHeader.size)

/-- `MainPacket::Load`. -/
def MainPacket.load : Option MainPacket :=
  if header.length < 76 then none
  else if 0 < (header.length - 76) % 16 then none
  else if hlength : 76 + 32768 * 16 < header.length then none
  else
    (readBody diskfile offset header).bind fun body =>
      let fileids := (List.range ((header.length - 76) / 16)).map fun filenumber => field (12 + 16 * filenumber) 16 body
      let recoverablefilecount := littleEndian (field 8 4 body)
      let blocksize := littleEndian (field 0 8 body)
      if hcount : fileids.length < recoverablefilecount then none
      else if hsize : blocksize = 0 ∨ blocksize % 4 ≠ 0 then none
      else
        some
          { blocksize, fileids, recoverablefilecount
            blocksize_pos := Nat.pos_of_ne_zero fun h => hsize (.inl h)
            totalfilecount_le := by rw [List.length_map, List.length_range]; omega
            recoverablefilecount_le := Nat.le_of_not_lt hcount }

/-- `DescriptionPacket::Load`, with the file that is described. -/
def DescriptionPacket.load : Option (List UInt8 × DescriptionPacket) :=
  if header.length ≤ 120 then none
  else if 100000 < header.length - 120 then none
  else
    (readBody diskfile offset header).bind fun body =>
      let packet : DescriptionPacket :=
        { filename := ((body.drop 56).takeWhile (· ≠ 0)).map fun c => Char.ofNat c.toNat
          fileSize := littleEndian (field 48 8 body)
          hashFull := field 16 16 body
          hash16k := field 32 16 body }
      if packet.fileSize ≤ 16384 ∧ packet.hash16k ≠ packet.hashFull then none else some (field 0 16 body, packet)

/-- `VerificationPacket::Load`, with the file that the entries are of. -/
def VerificationPacket.load : Option (List UInt8 × VerificationPacket) :=
  if hsmall : header.length ≤ 80 then none
  else if hwhole : 0 < (header.length - 80) % 20 then none
  else if hlarge : 80 + 32768 * 20 < header.length then none
  else
    (readBody diskfile offset header).map fun body =>
      (field 0 16 body,
        { entries := (List.range ((header.length - 80) / 20)).map fun blocknumber =>
            { hash := field (16 + 20 * blocknumber) 16 body
              crc := UInt32.ofNat (littleEndian (field (32 + 20 * blocknumber) 4 body)) }
          blockcount_pos := by rw [List.length_map, List.length_range]; omega
          blockcount_le := by rw [List.length_map, List.length_range]; omega })

/-- `RecoveryPacket::Load`: the exponent and the size of the block. -/
def loadRecovery : Option (UInt32 × Nat) :=
  if header.length ≤ 68 then none
  else (diskfile.read (offset + PacketHeader.size) 4).map fun exponent =>
    (UInt32.ofNat (littleEndian exponent), header.length - 68)

/-- `CreatorPacket::Load`. -/
def loadCreator : Bool :=
  64 < header.length && header.length - 64 ≤ 100000 && (readBody diskfile offset header).isSome

end

/-- The part of a `Par2Repairer` that packets are loaded into. -/
structure Loader where
  /-- None before the first packet. -/
  setid : Option (List UInt8) := none
  mainpacket : Option MainPacket := none
  creatorpacket : Bool := false
  sourcefilemap : List (List UInt8 × Option DescriptionPacket × Option VerificationPacket) := []
  recoverypacketmap : List (UInt32 × Nat) := []
  diskFileMap : List Text := []

namespace Loader

def packets (s : Loader) : Packets := ⟨s.mainpacket, s.sourcefilemap, s.recoverypacketmap⟩

/-- The packets of a source file. -/
def sourceFile (s : Loader) (fileid : List UInt8) : Option DescriptionPacket × Option VerificationPacket :=
  ((s.sourcefilemap.find? (·.1 = fileid)).map (·.2)).getD (none, none)

/-- A packet is stored in its source file, which is made where there is none. -/
def store (fileid : List UInt8) (found : Option DescriptionPacket × Option VerificationPacket) (s : Loader) : Loader :=
  { s with
    sourcefilemap :=
      if s.sourcefilemap.any (·.1 = fileid) then
        s.sourcefilemap.map fun entry => if entry.1 = fileid then (fileid, found) else entry
      else s.sourcefilemap ++ [(fileid, found)] }

section
variable (diskfile : DiskFile) (offset : Nat) (header : PacketHeader) (s : Loader)

def loadRecoveryPacket : Loader × Bool :=
  match loadRecovery diskfile offset header with
  | none => (s, false)
  | some packet =>
    if s.recoverypacketmap.any (·.1 = packet.1) then (s, false)
    else ({ s with recoverypacketmap := s.recoverypacketmap ++ [packet] }, true)

def loadDescriptionPacket : Loader × Bool :=
  match DescriptionPacket.load diskfile offset header with
  | none => (s, false)
  | some (fileid, packet) =>
    match s.sourceFile fileid with
    | (some _, _) => (s, false)
    | (none, verificationpacket) => (s.store fileid (some packet, verificationpacket), true)

def loadVerificationPacket : Loader × Bool :=
  match VerificationPacket.load diskfile offset header with
  | none => (s, false)
  | some (fileid, packet) =>
    match s.sourceFile fileid with
    | (_, some _) => (s, false)
    | (descriptionpacket, none) => (s.store fileid (descriptionpacket, some packet), true)

def loadMainPacket : Loader × Bool :=
  if s.mainpacket.isSome then (s, false)
  else
    match MainPacket.load diskfile offset header with
    | none => (s, false)
    | some packet => ({ s with mainpacket := some packet }, true)

def loadCreatorPacket : Loader × Bool :=
  if s.creatorpacket then (s, false)
  else if loadCreator diskfile offset header then ({ s with creatorpacket := true }, true)
  else (s, false)

/-- What is done with a packet whose hash fits, and whether it was used. -/
def usePacket : Loader × Bool :=
  let s := { s with setid := s.setid.or (some header.setid) }
  if s.setid = some header.setid then
    if header.type = recoveryblockpacketType then s.loadRecoveryPacket diskfile offset header
    else if header.type = fileverificationpacketType then s.loadVerificationPacket diskfile offset header
    else if header.type = filedescriptionpacketType then s.loadDescriptionPacket diskfile offset header
    else if header.type = mainpacketType then s.loadMainPacket diskfile offset header
    else if header.type = creatorpacketType then s.loadCreatorPacket diskfile offset header
    else (s, false)
  else (s, false)

end
end Loader

/-! ### Searching a file -/

section
variable (diskfile : DiskFile) (buffersize : Nat)

/-- The scan of a buffer for the magic: the place that it stops at, which is behind the limit if there is none. -/
def scanBuffer (limit : Nat) (buffer : List UInt8) : Nat :=
  ((List.range (limit + 1)).find? fun current => field current 8 buffer = packetMagic).getD (limit + 1)

/-- The loop that looks for the magic in one buffer after the other. Each moves on, so there are no more than the file has
    characters. -/
def searchMagic : Nat → Nat → Option (Nat × PacketHeader)
  | 0, _ => none
  | reads + 1, offset =>
    if offset + PacketHeader.size ≤ diskfile.fileSize then
      let want := min buffersize (diskfile.fileSize - offset)
      match diskfile.read offset want with
      | none => none
      | some buffer =>
        let limit := want - PacketHeader.size
        let current := scanBuffer limit buffer
        if current ≤ limit then some (offset + current, .ofBytes (buffer.drop current))
        else searchMagic reads (offset + current)
    else none

/-- The next header from an offset on; none where the loop is left. -/
def nextHeader (offset : Nat) : Option (Nat × PacketHeader) :=
  (diskfile.read offset PacketHeader.size).bind fun bytes =>
    let header := PacketHeader.ofBytes bytes
    if header.magic = packetMagic then some (offset, header) else searchMagic diskfile buffersize diskfile.fileSize (offset + 1)

/-- The rest of a packet is hashed; none where it cannot be read. -/
def hashPacket (limit : Nat) : Nat → Nat → MD5Context → Option MD5Context
  | 0, _, context => some context
  | reads + 1, current, context =>
    if current < limit then
      let want := min buffersize (limit - current)
      match diskfile.read current want with
      | none => none
      | some buffer => hashPacket limit reads (current + want) (context.update buffer)
    else some context

/-- Whether a header is that of a packet: its length is possible, and its hash is that of the packet. -/
def checkPacket (offset : Nat) (header : PacketHeader) : Bool :=
  if header.length < PacketHeader.size ∨ header.length % 4 ≠ 0 ∨ diskfile.fileSize < header.stop offset then false
  else
    let context := ({} : MD5Context).update (header.setid ++ header.type)
    match hashPacket diskfile buffersize (header.stop offset) diskfile.fileSize (offset + PacketHeader.size) context with
    | none => false
    | some context => context.final = header.hash

/-- The loop of `LoadPacketsFromFile`, with how many packets it used. None where it takes more turns. -/
def loadLoop : Nat → Nat → Loader × Nat → Option (Loader × Nat)
  | 0, _, _ => none
  | turns + 1, offset, (s, packets) =>
    if offset + PacketHeader.size ≤ diskfile.fileSize then
      match nextHeader diskfile buffersize offset with
      | none => some (s, packets)
      | some (offset, header) =>
        if checkPacket diskfile buffersize offset header then
          let (s, used) := s.usePacket diskfile offset header
          loadLoop turns (header.stop offset) (s, if used then packets + 1 else packets)
        else loadLoop turns (offset + 1) (s, packets)
    else some (s, packets)

end

/-! ### Files -/

section
variable (o : Outside) (turns : Nat)

def Loader.loadPacketsFromFile (s : Loader) (filename : Text) : Option Loader :=
  if filename ∈ s.diskFileMap then some s
  else
    match o.disk filename with
    | none => some s
    | some diskfile =>
      (loadLoop diskfile (min 1048576 diskfile.fileSize) turns 0 (s, 0)).map fun (s, packets) =>
        if 0 < packets then { s with diskFileMap := s.diskFileMap ++ [filename] } else s

/-- A name is cut off at its last dots, until what is cut off was `par2`. -/
def trimPar2 (name : Text) : Nat → Text
  | 0 => name
  | dots + 1 =>
    if '.' ∈ name then
      let tail := afterLast '.' name
      let name := name.take (name.length - tail.length - 1)
      if tail.map Char.toLower = "par2".toList then name else trimPar2 name dots
    else name

/-- Whether the scan of a tail for `vol123-456` or `vol123+456` does not stop. It takes what such a tail begins with, too. -/
def matchesVol : Nat → Text → Bool
  | _, [] => true
  | n, ch :: tail =>
    if n = 0 then ch.toLower = 'v' && matchesVol 1 tail
    else if n = 1 then ch.toLower = 'o' && matchesVol 2 tail
    else if n = 2 then ch.toLower = 'l' && matchesVol 3 tail
    else if n = 3 then if ch.isDigit then matchesVol 3 tail else (ch = '-' || ch = '+') && matchesVol 4 tail
    else ch.isDigit && matchesVol n tail

/-- The name that the other files of a set have in common with a par2 file. -/
def baseName (name : Text) : Text :=
  let name := trimPar2 name (name.count '.')
  let tail := afterLast '.' name
  if '.' ∈ name ∧ matchesVol 0 tail then name.take (name.length - tail.length - 1) else name

/-- `FindFiles` in a directory, for a wildcard that has a `*`. -/
def findFiles (readdir : Text → List Text) (path wildcard : Text) : List Text :=
  let front := wildcard.takeWhile (· ≠ '*')
  let back := (wildcard.dropWhile (· ≠ '*')).drop 1
  ((readdir path).filter fun name =>
    name ≠ ".".toList && name ≠ "..".toList && wildcard.length ≤ name.length && front.isPrefixOf name &&
      back.isSuffixOf name).map (path ++ ·)

/-- The files of `LoadPacketsFromOtherFiles`. -/
def otherFiles (readdir : Text → List Text) (filename : Text) : List Text :=
  let (path, name) := splitFilename filename
  let name := baseName name
  [".par2".toList, ".PAR2".toList].flatMap fun extension =>
    findFiles readdir path (if name = [] then '*' :: extension else name ++ ".*".toList ++ extension)

/-- The files of `LoadPacketsFromExtraFiles`. -/
def extraPar2Files (extrafiles : List Text) : List Text :=
  extrafiles.filter fun filename => ".par2".toList <:+: filename ∨ ".PAR2".toList <:+: filename

/-- The files that `Process` loads packets from, in their order. -/
def par2Files (readdir : Text → List Text) (par2filename : Text) (filenames : List Text) : List Text :=
  let (searchpath, name) := splitFilename par2filename
  (searchpath ++ name) :: (otherFiles readdir par2filename ++ extraPar2Files (extraFiles o filenames))

/-- The whole of `Process`. None where the packets of a file take more turns than that. -/
def processFiles (readdir : Text → List Text) (par2filename : Text) (filenames : List Text)
    (extrafilenamemap : List (Text × Text)) (dorepair : Bool) : Option (Option Repairer × Result) :=
  ((par2Files o readdir par2filename filenames).foldlM (Loader.loadPacketsFromFile o turns) {}).map fun s =>
    process o s.packets (splitFilename par2filename).1 s.diskFileMap filenames extrafilenamemap dorepair

end
end Nget.Par2

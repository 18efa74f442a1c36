import Nget.MidInfo

/-! Retrieving a queue of files (`nntp_doretrieve` in `prot_nntp.cc`, `Decoder` in `decode.cc`). What a
    retrieval asks of the network, the disk, uulib and the par handler is the parameter `Outside`, over a
    state `W` of its own; each of these may throw. -/

namespace Nget
open CString

/-! ### Options -/

def getfilesGetincomplete : UInt32 := 2
def getfilesNodupefilecheck : UInt32 := 128
def getfilesNoautopar : UInt32 := 4096
def getfilesNodecode : UInt32 := 8
def getfilesKeeptemp : UInt32 := 16
def getfilesTempshortnames : UInt32 := 32
def getfilesNoconnect : UInt32 := 64
def getfilesTestmode : UInt32 := 512
def getfilesMark : UInt32 := 1024
def getfilesUnmark : UInt32 := 2048

def getfilesAutoparDisablingFlags : UInt32 :=
  getfilesNoautopar ||| getfilesTestmode ||| getfilesMark ||| getfilesUnmark ||| getfilesNodecode

/-- The fields of `nget_options` that a retrieval reads. -/
structure NgetOptions where
  gflags : UInt32 := 0
  writelite : Text := []

/-- One of the flags is set. -/
def NgetOptions.has (options : NgetOptions) (flags : UInt32) : Bool := options.gflags &&& flags ≠ 0

/-! ### The queue -/

/-- `c_nntp_file_retr`. -/
structure NntpFileRetr where
  path : Text
  temppath : Text
  file : NntpFile
  dupecheck : Bool

/-- `c_nntp_files_u`, with the files in the order of the multimap. -/
structure NntpFilesU where
  bytes : UInt64 := 0
  files : List NntpFileRetr := []

/-- `%03i`. -/
def printPartnum (n : Int32) : Text :=
  let digits := Nat.toDigits 10 n.toInt.natAbs
  if n < 0 then '-' :: (List.replicate (2 - digits.length) '0' ++ digits)
  else List.replicate (3 - digits.length) '0' ++ digits

/-- The name of a part's temp file. -/
def tempName (checksum : Text → Nat) (options : NgetOptions) (fr : NntpFileRetr) (p : NntpPart) : Text :=
  let usepath := if !options.writelite.isEmpty then [] else fr.temppath
  let fileid := Nat.toDigits 16 (fr.file.getfileid checksum)
  if options.has getfilesTempshortnames then usepath ++ (fileid ++ '.' :: printPartnum p.partnum)
  else usepath ++ ("ngettemp-".toList ++ (fileid ++ '.' :: printPartnum p.partnum))

/-! ### What is outside -/

/-- An item of uulib's list: whether it has a name, whether it is complete, the errors that the callback
    counts while its info is read and while it is decoded, whether it is a text that needs no decoding, and
    whether its decoding succeeds, under what name and with what size. -/
structure UuItem where
  noname : Bool
  ok : Bool
  infoErrs : Nat
  textItem : Bool
  decodeErrs : Nat
  decoded : Bool
  filename : Text
  size : UInt64

/-- What uulib makes of the temp files. -/
structure UuRun where
  loadErrs : Nat
  /-- The last message that was counted is a note. -/
  lastNote : Bool
  items : List UuItem

structure Outside (W : Type) where
  fexists : Text → W → Bool
  time : W → Int64
  /-- `nntp_doarticle`; when it returns 0 it has made the temp file. -/
  doarticle : NntpPart → Text → W → Except Text Int32 × W
  dowriteliteArticle : NntpPart → Text → W → Except Text Unit × W
  uulib : NntpFileRetr → List (Int32 × Text) → W → Except Text UuRun × W
  saveText : NntpFileRetr → W → Except Text Unit × W
  unlink : Text → W → W
  /-- The expression of a file name matches a subject. -/
  dupeMatch : Text → Text → Bool
  getInitialPars : NntpFilesU → W → Except Text NntpFilesU × W
  maybeGetPxxs : Text → NntpFilesU → W → Except Text NntpFilesU × W
  /-- `c_nntp_part::bytes`, the size of the article of the most trusted server. -/
  bytes : NntpPart → UInt64
  checksum : Text → Nat

section
variable {W : Type} (out : Outside W) (options : NgetOptions)

def fileBytes (f : NntpFile) : UInt64 := f.parts.foldl (fun b p => b + out.bytes p) 0

/-! ### `Decoder` -/

/-- The loop over the items of uulib's list, with the count of errors and the files that the dupe check is
    to know. -/
def decodeItems : List UuItem → Nat → List (Text × UInt64) → Nat × List (Text × UInt64)
  | [], derr, flist => (derr, flist)
  | item :: items, derr, flist =>
    let derr := if item.noname then derr + 1 else derr
    let derr := if !item.ok then derr + 1 else derr
    let preDecodeDerr := derr + item.infoErrs
    if item.textItem then decodeItems items preDecodeDerr flist
    else
      let derr := preDecodeDerr + item.decodeErrs
      if !item.decoded then decodeItems items (derr + 1) flist
      else if preDecodeDerr ≠ derr then decodeItems items derr flist
      else decodeItems items derr (if options.has getfilesNodupefilecheck then flist else flist ++ [(item.filename, item.size)])

/-- `Decoder::decode`: the count of errors, and the files for the dupe check. -/
def decode (fr : NntpFileRetr) (fnbuf : List (Int32 × Text)) (w : W) : Except Text (Nat × List (Text × UInt64)) × W :=
  if fnbuf.isEmpty then (.ok (0, []), w)
  else
    match out.uulib fr fnbuf w with
    | (.error e, w) => (.error e, w)
    | (.ok run, w) =>
      let (derr, flist) := decodeItems options run.items run.loadErrs []
      let noData := derr = 1 && run.lastNote && run.items.isEmpty && fr.file.req ≤ 0 && fnbuf.length = 1
      let derr := if noData then 0 else derr
      let un := if noData then 1 else run.items.length
      if 0 < derr then (.ok (derr, flist), w)
      else
        match out.saveText fr w with
        | (.error e, w) => (.error e, w)
        | (.ok (), w) =>
          if un = 0 then (.ok (1, flist), w)
          else (.ok (0, flist), if options.has getfilesKeeptemp then w else fnbuf.foldl (fun w fn => out.unlink fn.2 w) w)

/-- `checkhavefile`: a file of the list that may be the whole of it, by its size and name. -/
def checkhavefile (flist : List (Text × UInt64)) (subject : Text) (bytes : UInt64) : Bool :=
  flist.any fun fm => bytes / 2 < fm.2 && fm.2 < bytes && out.dupeMatch fm.1 subject

/-! ### The parts of a file -/

/-- What the loop over the parts changes. -/
structure PartsState (W : Type) where
  dlerr : Bool := false
  fnbuf : List (Int32 × Text) := []
  bytesleft : UInt64
  world : W

/-- One part, with what it throws. -/
def retrievePart (fr : NntpFileRetr) (p : NntpPart) (st : PartsState W) : Option Text × PartsState W :=
  let counted := { st with bytesleft := st.bytesleft - out.bytes p }
  if st.dlerr then (none, counted)
  else
    let fn := tempName out.checksum options fr p
    let added := { counted with fnbuf := st.fnbuf ++ [(p.partnum, fn)] }
    if out.fexists fn st.world then (none, added)
    else if !options.writelite.isEmpty then
      match out.dowriteliteArticle p fn st.world with
      | (.error e, world) => (some e, { st with world })
      | (.ok (), world) => (none, { counted with world })
    else
      match if options.has getfilesNoconnect then (.ok (-1), st.world) else out.doarticle p fn st.world with
      | (.error e, world) => (some e, { st with world })
      | (.ok r, world) =>
        if r = 0 then (none, { added with world })
        else if options.has getfilesGetincomplete then (none, { counted with world })
        else (none, { counted with dlerr := true, world })

def retrieveParts (fr : NntpFileRetr) : List NntpPart → PartsState W → Option Text × PartsState W
  | [], st => (none, st)
  | p :: ps, st =>
    match retrievePart out options fr p st with
    | (some e, st) => (some e, st)
    | (none, st) => retrieveParts fr ps st

/-! ### The files of the queue -/

/-- What the loop over the queue changes. -/
structure Retrieving (W : Type) where
  filec : NntpFilesU
  midinfo : MetaMidInfo
  bytesleft : UInt64
  filestot : UInt64
  filesdone : UInt64 := 0
  world : W

/-- What was done to a file: the temp files that it was decoded from or that are kept, what `decode`
    returned where it was called, and whether the file's message-id was recorded. -/
structure FileOutcome (W : Type) where
  retr : NntpFileRetr
  before : W
  obtained : List (Int32 × Text)
  derr : Option Nat := none
  recorded : Bool := false

/-- The files behind the first one that the decoded files are already of are taken out of the queue. -/
def removeDupes (fr : NntpFileRetr) (flist : List (Text × UInt64)) (st : Retrieving W) : Retrieving W :=
  let isDupe := fun dfr : NntpFileRetr => dfr.dupecheck && dfr.path = fr.path &&
    checkhavefile out flist dfr.file.subject (fileBytes out dfr.file)
  let gone := st.filec.files.tail.filter isDupe
  let bytesleft := gone.foldl (fun b dfr => b - fileBytes out dfr.file) st.bytesleft
  { st with
    filec := ⟨if gone.isEmpty then st.filec.bytes else bytesleft,
      st.filec.files.take 1 ++ st.filec.files.tail.filter fun dfr => !isDupe dfr⟩
    filestot := st.filestot - UInt64.ofNat gone.length
    bytesleft }

/-- The body of the loop for the first file of the queue. -/
def retrieveFile (fr : NntpFileRetr) (st : Retrieving W) : Except Text (FileOutcome W) × Retrieving W :=
  match retrieveParts out options fr fr.file.parts { bytesleft := st.bytesleft, world := st.world } with
  | (some e, ps) => (.error e, { st with world := ps.world })
  | (none, ps) =>
    let outcome : FileOutcome W := { retr := fr, before := st.world, obtained := ps.fnbuf }
    let st := { st with bytesleft := ps.bytesleft, world := ps.world }
    if ps.dlerr then (.ok outcome, st)
    else if options.has getfilesNodecode then (.ok outcome, st)
    else
      match decode out options fr ps.fnbuf ps.world with
      | (.error e, world) => (.error e, { st with world })
      | (.ok (derr, flist), world) =>
        if derr = 0 then
          let st := { st with midinfo := st.midinfo.insert fr.file (out.time world), world }
          (.ok { outcome with derr := some derr, recorded := true }, if flist.isEmpty then st else removeDupes out fr flist st)
        else (.ok { outcome with derr := some derr }, { st with world })

/-- The first file is erased, and the par handler asked when it was the last one for its path. -/
def eraseCurrent (fr : NntpFileRetr) (st : Retrieving W) : Option Text × Retrieving W :=
  let st := { st with filec := ⟨st.bytesleft, st.filec.files.tail⟩, filesdone := st.filesdone + 1 }
  if options.has getfilesAutoparDisablingFlags || st.filec.files.any (·.path = fr.path) then (none, st)
  else
    match out.maybeGetPxxs fr.path st.filec st.world with
    | (.error e, world) => (some e, { st with world })
    | (.ok filec, world) =>
      (none, { st with
        filec, world
        bytesleft := filec.bytes
        filestot := st.filestot + (UInt64.ofNat filec.files.length - UInt64.ofNat st.filec.files.length) })

/-- How a run stands: at its end, cut off by an exception, or still going. -/
inductive RunEnd where
  | finished
  | thrown (text : Text)
  | going

/-- A run, with what was done to each file. -/
structure RetrieveRun (W : Type) where
  outcomes : List (FileOutcome W)
  atEnd : RunEnd
  state : Retrieving W

/-- The loop over the queue, for so many files at most. -/
def retrieveLoop : Nat → Retrieving W → RetrieveRun W
  | 0, st => ⟨[], .going, st⟩
  | fuel + 1, st =>
    match st.filec.files with
    | [] => ⟨[], .finished, st⟩
    | fr :: _ =>
      match retrieveFile out options fr st with
      | (.error e, st) => ⟨[], .thrown e, st⟩
      | (.ok outcome, st) =>
        match eraseCurrent out options fr st with
        | (some e, st) => ⟨[outcome], .thrown e, st⟩
        | (none, st) => { retrieveLoop fuel st with outcomes := outcome :: (retrieveLoop fuel st).outcomes }

/-- `nntp_doretrieve`. -/
def nntpDoretrieve (fuel : Nat) (filec : NntpFilesU) (midinfo : MetaMidInfo) (world : W) : RetrieveRun W :=
  match if options.has getfilesAutoparDisablingFlags then (.ok filec, world) else out.getInitialPars filec world with
  | (.error e, world) =>
    ⟨[], .thrown e, { filec, midinfo, bytesleft := filec.bytes, filestot := UInt64.ofNat filec.files.length, world }⟩
  | (.ok filec, world) =>
    let st := { filec, midinfo, bytesleft := filec.bytes, filestot := UInt64.ofNat filec.files.length, world }
    if filec.files.isEmpty then ⟨[], .finished, st⟩
    else if options.has getfilesUnmark then
      if options.has getfilesTestmode then ⟨[], .finished, st⟩
      else ⟨[], .finished, { st with midinfo := filec.files.foldl (fun m fr => m.remove fr.file.bamid) midinfo }⟩
    else if options.has getfilesTestmode then ⟨[], .finished, st⟩
    else if options.has getfilesMark then
      ⟨[], .finished, { st with midinfo := filec.files.foldl (fun m fr => m.insert fr.file (out.time world)) midinfo }⟩
    else if !options.writelite.isEmpty then
      retrieveLoop out { options with gflags := options.gflags ||| getfilesNodecode } fuel st
    else retrieveLoop out options fuel st

end
end Nget

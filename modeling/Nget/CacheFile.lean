import Nget.Buffy
import Nget.Cache

/-! The header cache on disk: reading it line by line (`c_nntp_cache_reader`), loading a cache from it and
    saving a cache to it (the constructor from a file and the destructor of `c_nntp_cache`). A function
    that throws a `CacheEx` gives its text, beside the state as it is then. The modes of the reader carry the
    pointers that they need, so that a mode whose pointer is null cannot be. -/

namespace Nget
open CString

def cacheVersion : Text := "NGET5".toList
def cacheSortver : Int32 := 1

/-- `c_nntp_cache_reader`, with what is left of the file and how often a warning was given. -/
structure CacheReader where
  f : Text
  midinfo : MetaMidInfo
  group : Text
  cacheSortver : Int32 := -1
  count : UInt64 := 0
  counta : UInt64 := 0
  curline : UInt64 := 0
  countdeada : UInt64 := 0
  totalnum : UInt64 := 0
  warned : Nat := 0

/-- The mode of `read_file`, with the file `nf` that is being read, and the index in its parts of the part
    `np`, which is null before the first part and after a part was dropped. -/
inductive ReadMode where
  | file
  | references (nf : NntpFile)
  | part (nf : NntpFile) (np : Option Nat)
  | serverArticle (nf : NntpFile) (np : Nat)

namespace CacheReader

def unexpectedEof (r : CacheReader) : Text := "unexpected EOF on cache file line ".toList ++ printUlong r.curline

/-- `set_cache_warn_status`. -/
def warn (r : CacheReader) : CacheReader := { r with warned := r.warned + 1 }

/-- A line that starts with a dot is read, and there is a warning when it goes on. -/
def endMark (r : CacheReader) : CacheReader :=
  let (line, f) := bgetsp r.f
  if line.getD 1 nul ≠ nul then ({ r with f }).warn else { r with f }

/-! ### The start of the file -/

/-- The loop over the lines of the servers' infos, for so many lines at most. -/
def serverInfoLoop (hasserver : UInt64 → Bool) :
    Nat → CacheReader → SortedMap UInt64 NntpServerInfo → Option Text × CacheReader × SortedMap UInt64 NntpServerInfo
  | 0, r, serverInfo => (some r.unexpectedEof, r, serverInfo)
  | fuel + 1, r, serverInfo =>
    if r.f.isEmpty then (some r.unexpectedEof, r, serverInfo)
    else
      let r := { r with curline := r.curline + 1 }
      if r.f.head? = some '.' then (none, r.endMark, serverInfo)
      else
        let (i, t, f) := btoks '\t' 4 true r.f
        let r := { r with f }
        if i = 4 then
          let serverid := atoul (t.getD 0 [])
          if hasserver serverid then
            serverInfoLoop hasserver fuel r (serverInfo.insertNew serverid
              ⟨serverid, atoul (t.getD 1 []), atoul (t.getD 2 []), atoul (t.getD 3 [])⟩)
          else serverInfoLoop hasserver fuel r.warn serverInfo
        else serverInfoLoop hasserver fuel r.warn serverInfo

/-- `c_nntp_cache_reader`'s constructor. -/
def start (hasserver : UInt64 → Bool) (f : Text) (midinfo : MetaMidInfo) (serverInfo : SortedMap UInt64 NntpServerInfo)
    (group : Text) : Option Text × CacheReader × SortedMap UInt64 NntpServerInfo :=
  let r : CacheReader := { f, midinfo, group }
  if r.f.isEmpty then (some r.unexpectedEof, r, serverInfo)
  else
    let r := { r with curline := r.curline + 1 }
    let (i, t, f) := btoks '\t' 2 true r.f
    let r := { r with f }
    if i = 2 && t.getD 0 [] = cacheVersion then
      let subvercp := (t.getD 1 []).dropWhile (· ≠ ' ')
      serverInfoLoop hasserver f.length { r with
        totalnum := atoul (t.getD 1 [])
        cacheSortver := if subvercp.isEmpty then r.cacheSortver else atoi subvercp } serverInfo
    else if 0 < i && (t.getD 0 []).take 4 = "NGET".toList then
      (some "cache is from a different version of nget".toList, r, serverInfo)
    else (some "cache does not seem to be an nget cache file".toList, r, serverInfo)

/-! ### The files -/

section
variable (hasserver : UInt64 → Bool) (now : Int64)

/-- What is done first in the part mode: a part that got no article is dropped. -/
def dropEmptyPart (r : CacheReader) (nf : NntpFile) (np : Option Nat) : CacheReader × NntpFile × Option Nat :=
  match np.bind (nf.parts[·]?) with
  | some p =>
    if p.articles.isEmpty then
      ({ r with midinfo := r.midinfo.setDelete p.messageid now, count := r.count - 1 },
        { nf with parts := NntpFileParts.removepart nf.parts p.partnum }, none)
    else (r, nf, np)
  | none => (r, nf, np)

/-- One turn of `read_file`'s loop: the next mode, or the file that is returned. -/
def turn (r : CacheReader) (mode : ReadMode) : CacheReader × (ReadMode ⊕ NntpFile) :=
  let r := { r with curline := r.curline + 1 }
  match mode with
  | .serverArticle nf np =>
    if r.f.head? = some '.' then (r.endMark, .inl (.part nf (some np)))
    else
      let (i, t, f) := btoks '\t' 4 true r.f
      let r := { r with f }
      if i = 4 then
        let serverid := atoul (t.getD 0 [])
        if hasserver serverid then
          let sa := ⟨serverid, r.group, atoul (t.getD 1 []), atoul (t.getD 2 []), atoul (t.getD 3 [])⟩
          ({ r with counta := r.counta + 1 }, .inl (.serverArticle
            { nf with parts := nf.parts.modify np fun p => { p with articles := p.articles ++ [sa] } } np))
        else ({ r with countdeada := r.countdeada + 1 }, .inl (.serverArticle nf np))
      else (r.warn, .inl (.serverArticle nf np))
  | .part nf np =>
    let (r, nf, np) := dropEmptyPart now r nf np
    if r.f.head? = some '.' then
      if nf.parts.isEmpty then (r.endMark.warn, .inl .file) else (r.endMark, .inr nf)
    else
      let (i, t, f) := btoks '\t' 3 true r.f
      let r := { r with f }
      if i = 3 then
        let p : NntpPart := ⟨atoi (t.getD 0 []), [], atotime (t.getD 1 []), t.getD 2 []⟩
        ({ r with count := r.count + 1 },
          .inl (.serverArticle (nf.addpart p) (NntpFileParts.lowerBound nf.parts p.partnum)))
      else (r.warn, .inl (.part nf np))
  | .file =>
    let (i, t, f) := btoks '\t' 7 true r.f
    let r := { r with f }
    if i = 7 then
      (r, .inl (.references
        { req := atoi (t.getD 0 []), flags := atoul (t.getD 1 []), subject := t.getD 2 [], author := t.getD 3 [],
          partoff := atoi (t.getD 4 []), tailoff := atoi (t.getD 5 []), update := atotime (t.getD 6 []),
          references := [] }))
    else (r.warn, .inl .file)
  | .references nf =>
    let (buf, f) := bgetsp r.f
    let r := { r with f }
    if buf = ['.'] then (r, .inl (.part nf none))
    else
      (r, .inl (.references
        { nf with references := nf.references ++ [if buf.head? = some '.' then buf.tail else buf] }))

/-- The loop of `read_file`, for so many lines at most: the file that is returned, if any, or what is thrown. -/
def readFileLoop : Nat → CacheReader → ReadMode → CacheReader × Except Text (Option NntpFile)
  | fuel, r, mode =>
    if r.f.isEmpty then
      match mode with
      | .file => (r, .ok none)
      | _ => (r, .error r.unexpectedEof)
    else
      match fuel with
      | 0 => (r, .error r.unexpectedEof)
      | fuel + 1 =>
        match turn hasserver now r mode with
        | (r, .inl mode) => readFileLoop fuel r mode
        | (r, .inr nf) => (r, .ok (some nf))

/-- `read_file`. Each turn reads a line, so there are no more turns than characters. -/
def readFile (r : CacheReader) : CacheReader × Except Text (Option NntpFile) := readFileLoop hasserver now r.f.length r .file

/-- The files that the calls of `read_file` return, up to so many, and what the last one throws. -/
def readFiles : Nat → CacheReader → CacheReader × List NntpFile × Option Text
  | fuel, r =>
    match readFile hasserver now r with
    | (r, .ok none) => (r, [], none)
    | (r, .error e) => (r, [], some e)
    | (r, .ok (some nf)) =>
      match fuel with
      | 0 => (r, [nf], none)
      | fuel + 1 =>
        let (r, files, thrown) := readFiles fuel r
        (r, nf :: files, thrown)

end

/-- `check_counts`. -/
def checkCounts (r : CacheReader) : CacheReader :=
  let r := if r.countdeada ≠ 0 then r.warn else r
  if r.count ≠ r.totalnum then { r with totalnum := r.count }.warn else r

end CacheReader

namespace NntpCache

/-- An insertion into the multimap of files: behind the files that are not above it. -/
def insertFile (files : List NntpFile) (nf : NntpFile) : List NntpFile :=
  files.takeWhile (fun f => !nf.toNntpFileBase.lt f.toNntpFileBase) ++
    nf :: files.dropWhile (fun f => !nf.toNntpFileBase.lt f.toNntpFileBase)

/-- The constructor from a file, which may not exist. -/
def load (hasserver : UInt64 → Bool) (now : Int64) (group : Text) (midinfo : MetaMidInfo) (file : Option Text) :
    NntpCache × MetaMidInfo :=
  let c : NntpCache := { group, fileread := 0 }
  match file with
  | none => (c, midinfo)
  | some f =>
    match CacheReader.start hasserver f midinfo c.serverInfo group with
    | (some _, r, serverInfo) => ({ c with serverInfo }, r.midinfo)
    | (none, r, serverInfo) =>
      match CacheReader.readFiles hasserver now r.f.length r with
      | (r, files, some _) => ({ c with serverInfo, files := files.foldl insertFile [] }, r.midinfo)
      | (r, files, none) =>
        ({ c with
            serverInfo
            files := files.foldl insertFile []
            fileread := 1
            saveit := r.cacheSortver ≠ cacheSortver
            totalnum := r.checkCounts.totalnum }, r.midinfo)

/-! ### Saving -/

/-- The lines of a text, each with its end. -/
def putLines (lines : List Text) : Text := lines.flatMap (· ++ ['\n'])

def serverInfoLine (si : NntpServerInfo) : Text :=
  joinWith '\t' [printUlong si.serverid, printUlong si.high, printUlong si.low, printUlong si.num]

def articleLine (sa : NntpServerArticle) : Text :=
  joinWith '\t' [printUlong sa.serverid, printUlong sa.articlenum, printUlong sa.bytes, printUlong sa.lines]

def partLines (np : NntpPart) : List Text :=
  joinWith '\t' [printInt np.partnum, printTime np.date, cstr np.messageid] :: (np.articles.map articleLine ++ [['.']])

/-- A reference, with a dot put before one that starts with a dot. -/
def referenceLine (ri : Text) : Text := if ri.head? = some '.' then '.' :: cstr ri else cstr ri

def fileLines (nf : NntpFile) : List Text :=
  joinWith '\t' [printInt nf.req, printUlong nf.flags, cstr nf.subject, cstr nf.author, printInt nf.partoff,
      printInt nf.tailoff, printTime nf.update] ::
    (nf.references.map referenceLine ++ [['.']] ++ nf.parts.flatMap partLines ++ [['.']])

def headerLine (c : NntpCache) : Text :=
  joinWith '\t' [cacheVersion, printUlong c.totalnum ++ ' ' :: printInt cacheSortver]

/-- The lines that the destructor writes. -/
def cacheLines (c : NntpCache) : List Text :=
  c.headerLine :: (c.serverInfo.entries.map (fun e => serverInfoLine e.2) ++ [['.']] ++ c.files.flatMap fileLines)

/-- The text that the destructor writes, if it writes one. -/
def save (c : NntpCache) : Option Text :=
  if c.fileread ≠ -1 && c.saveit && (c.fileread ≠ 0 || !c.files.isEmpty) then some (putLines c.cacheLines) else none

end NntpCache
end Nget

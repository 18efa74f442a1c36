import Nget.Lib.Stdio
import Nget.NntpFile

/-! The litelist: nget writes the parts that it would download to a file (`nntp_dowritelite_article` in
    `prot_nntp.cc`), and ngetlite reads the file and downloads them (`dofile` in `lite.cc`), where it
    overwrites the first byte of what is downloaded. -/

namespace Nget
open CString

/-! ### The writer -/

/-- The fields of `c_server` that are written. -/
structure ServerLogin where
  addr : Text
  user : Text
  pass : Text
deriving DecidableEq

/-- `nntp_dowritelite_article`, with the group of the retrieval, if it has one, the servers that have the
    part in the order of their priorities, and the name of the temp file. -/
def nntpDowriteliteArticle (group : Option Text) (part : NntpPart) (sap : List (NntpServerArticle × ServerLogin)) (fn : Text) :
    Text :=
  "0\n".toList ++ group.getD [] ++ '\n' :: fn ++ '\n' :: printUlong (UInt64.ofNat sap.length) ++ '\n' ::
    sap.flatMap fun (sa, whost) =>
      whost.addr ++ '\t' :: whost.user ++ '\t' :: whost.pass ++ '\n' ::
        (match group with
          | some _ => printUlong sa.articlenum
          | none => part.messageid) ++ '\n' ::
        printUlong sa.bytes ++ '\n' :: printUlong sa.lines ++ ['\n']

/-- What one call writes. -/
structure QueuedPart where
  group : Option Text
  part : NntpPart
  sap : List (NntpServerArticle × ServerLogin)
  fn : Text

/-- The file after the calls for these parts, each of which appends to it. -/
def writelite (queue : List QueuedPart) : Text :=
  queue.foldl (fun fw q => fw ++ nntpDowriteliteArticle q.group q.part q.sap q.fn) []

namespace Lite

/-! ### The reader -/

/-- An exception: an `ApplicationExFatal`, another one that is fatal, or one that is not. -/
inductive Ex where
  | applicationFatal
  | fatal
  | error
deriving DecidableEq

/-- What `dofile` asks of the disk and of the network, over a state `W` of theirs. -/
structure Outside (W : Type) where
  fexists : Text → W → Bool
  doopen : Text → Option Text → Option Text → W → Except Ex Unit × W
  dogroup : Text → W → Except Ex Unit × W
  doarticle : Text → UInt64 → UInt64 → Text → W → Except Ex Unit × W

/-- One of the characters that end a line stands at the end. -/
def endsLine (buf : Text) : Bool := buf.getLast? = some '\n' || buf.getLast? = some '\r'

/-- `Bfgets`, on the buffer of `dofile`. -/
def bfgets (listf : Stdio) : Option Text × Stdio :=
  let (r, listf) := listf.fgets 2048
  (r.map fun line =>
    let buf := cstr line
    let cut := if endsLine buf then buf.dropLast else buf
    if endsLine buf && endsLine cut then cut.dropLast else cut, listf)

/-- A host of a record. A pointer that stays null is none. -/
structure Host where
  addr : Text
  user : Option Text
  pass : Option Text
  article : Text
  bytes : UInt64
  lines : UInt64
deriving DecidableEq

/-- What stands before and behind the first tab, if there is one. -/
def cutTab (s : Text) : Text × Option Text :=
  match s.dropWhile (· ≠ '\t') with
  | [] => (s, none)
  | _ :: rest => (s.takeWhile (· ≠ '\t'), some rest)

/-- The line of a host: its address, user and password. -/
def hostLine (buf : Text) : Text × Option Text × Option Text :=
  let (addr, user) := cutTab buf
  match user with
  | none => (addr, none, none)
  | some user =>
    let (user, pass) := cutTab user
    (addr, some user, pass)

/-- The four lines of a host. -/
def readHost (listf : Stdio) : Option Host × Stdio :=
  match bfgets listf with
  | (none, listf) => (none, listf)
  | (some host, listf) =>
    match bfgets listf with
    | (none, listf) => (none, listf)
    | (some article, listf) =>
      match bfgets listf with
      | (none, listf) => (none, listf)
      | (some bytes, listf) =>
        match bfgets listf with
        | (none, listf) => (none, listf)
        | (some lines, listf) =>
          let (addr, user, pass) := hostLine host
          (some ⟨addr, user, pass, article, atoul bytes, atoul lines⟩, listf)

/-- A record as it is read, with what was done for it: how often a download was started, and whether one
    was completed. `done` is the flag, `skipped` what `partdone` is before the hosts are read. -/
structure Record where
  done : Bool
  skipped : Bool
  group : Text
  outfile : Text
  hosts : List Host := []
  attempts : Nat := 0
  downloaded : Bool := false
deriving DecidableEq

section
variable {W : Type} (out : Outside W)

/-- The body of the `try` block. -/
def download (group outfile : Text) (host : Host) (w : W) : Except Ex Unit × W :=
  match out.doopen host.addr host.user host.pass w with
  | (.error e, w) => (.error e, w)
  | (.ok (), w) =>
    match if group.isEmpty then (.ok (), w) else out.dogroup group w with
    | (.error e, w) => (.error e, w)
    | (.ok (), w) => out.doarticle host.article host.bytes host.lines outfile w

/-- What the loop over the hosts changes. -/
structure HostState (W : Type) where
  listf : Stdio
  world : W
  partdone : Bool
  record : Record

/-- How a loop is left: it goes on, there is no line to read, or the program exits. -/
inductive Left where
  | next
  | noline
  | exit
deriving DecidableEq

/-- The flag at `flagpos` is overwritten. -/
def setFlag (flagpos : Nat) (listf : Stdio) : Stdio := ((listf.fseek flagpos).fputc '1').fseek listf.pos

/-- The `while` loop over the tries of one host, of which so many are left. -/
def tryHost (flagpos : Nat) (host : Host) : Nat → HostState W → Left × HostState W
  | 0, st => (.next, st)
  | tries + 1, st =>
    let record := { st.record with attempts := st.record.attempts + 1 }
    match download out record.group record.outfile host st.world with
    | (.ok (), world) =>
      (.next, { listf := setFlag flagpos st.listf, world, partdone := true, record := { record with downloaded := true } })
    | (.error .applicationFatal, world) => (.exit, { st with world, record })
    | (.error .fatal, world) => (.next, { st with world, record })
    | (.error .error, world) => tryHost flagpos host tries { st with world, record }

variable (maxretry : Int32)

/-- The `for` loop over the hosts, of which so many are left. -/
def hostLoop (flagpos : Nat) : Nat → HostState W → Left × HostState W
  | 0, st => (.next, st)
  | n + 1, st =>
    match readHost st.listf with
    | (none, listf) => (.noline, { st with listf })
    | (some host, listf) =>
      let st := { st with listf, record := { st.record with hosts := st.record.hosts ++ [host] } }
      if st.partdone then hostLoop flagpos n st
      else
        match tryHost out flagpos host maxretry.toInt.toNat st with
        | (.next, st) => hostLoop flagpos n st
        | (left, st) => (left, st)

/-- What is left to read of a record behind its flag. -/
def readRecord (flagpos : Nat) (done : Bool) (listf : Stdio) (w : W) : Left × Stdio × W × Option Record :=
  match bfgets listf with
  | (none, listf) => (.noline, listf, w, none)
  | (some group, listf) =>
    match bfgets listf with
    | (none, listf) => (.noline, listf, w, none)
    | (some outfile, listf) =>
      let skipped := done || out.fexists outfile w
      match bfgets listf with
      | (none, listf) => (.noline, listf, w, none)
      | (some count, listf) =>
        let (left, st) := hostLoop out maxretry flagpos (atoi count).toInt.toNat
          { listf, world := w, partdone := skipped, record := { done, skipped, group, outfile } }
        (left, st.listf, st.world, some st.record)

/-- How `dofile` ends: there is nothing more to read, a flag is neither `0` nor `1`, the program exits, or
    it is still going. -/
inductive DofileEnd where
  | finished
  | invalid
  | exited
  | going
deriving DecidableEq

/-- A run of `dofile`: the records that were read, its end, the file and the world afterwards. -/
structure DofileRun (W : Type) where
  records : List Record
  atEnd : DofileEnd
  listf : Stdio
  world : W

/-- The loop over the records, for so many of them at most. -/
def recordLoop : Nat → Stdio → W → DofileRun W
  | 0, listf, w => ⟨[], .going, listf, w⟩
  | fuel + 1, listf, w =>
    if listf.eof then ⟨[], .finished, listf, w⟩
    else
      let flagpos := listf.pos
      match bfgets listf with
      | (none, listf) => ⟨[], .finished, listf, w⟩
      | (some flag, listf) =>
        if flag ≠ "1".toList && flag ≠ "0".toList then ⟨[], .invalid, listf, w⟩
        else
          match readRecord out maxretry flagpos (flag = "1".toList) listf w with
          | (.next, listf, w, record) =>
            let run := recordLoop fuel listf w
            { run with records := record.toList ++ run.records }
          | (.noline, listf, w, record) => ⟨record.toList, .finished, listf, w⟩
          | (.exit, listf, w, record) => ⟨record.toList, .exited, listf, w⟩

/-- `dofile`. Each record takes at least one byte. -/
def dofile (file : Text) (w : W) : DofileRun W := recordLoop out maxretry (file.length + 1) { bytes := file } w

end
end Lite
end Nget

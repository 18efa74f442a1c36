import Nget.Cache
import Nget.Header

/-! Updating a group's headers from one server (`nntp_dogroup`, `doxover`, `dolistgroup` in
    `prot_nntp.cc`). The server is what it answers to each command; an exception carries the session as it
    is when it is thrown, since the headers that were added stay in the cache. -/

namespace Nget
open CString

/-- The status line and the lines after it that a server answers with. -/
structure Answer where
  reply : Text
  lines : List Text

/-- What the server answers in a session: to `GROUP`, to `LISTGROUP`, and to `XOVER` of each range. -/
structure Answers where
  group : Text
  listgroup : Answer
  xover : UInt64 → UInt64 → Answer

/-- An exception of the protocol or the connection; a fatal one rules the server out. -/
structure CommEx where
  fatal : Bool
  text : Text
deriving DecidableEq

/-- The settings that an update reads: `fullxover` and the server's id of the connection's server, and
    `maxheaders`, for which -1 is no limit. -/
structure UpdateConfig where
  serverid : UInt64
  fullxover : Int32
  maxheaders : Int32
  maxheaders_ge : -1 ≤ maxheaders := by decide

/-- What an update reads and changes. -/
structure Session where
  cache : NntpCache
  midinfo : MetaMidInfo := {}
  curgroup : Option Text := none
  /-- The setting of the connection's server, which a streaming error sets to 0. -/
  maxstreaming : Int32 := 64
  /-- The commands that were sent. -/
  sent : List Text := []
  /-- How often `set_xover_warn_status` was called. -/
  xoverWarn : Nat := 0

abbrev SessionM (α : Type) := Except (CommEx × Session) α

/-- `chkreply`. -/
def chkreply (st : Session) (reply : Text) : SessionM Unit :=
  if atoi reply = 400 then .error (⟨false, "server says byebye: ".toList ++ reply⟩, st)
  else if atoi reply / 100 ≠ 2 then
    .error (⟨true, "bad reply ".toList ++ printInt (atoi reply) ++ ": ".toList ++ reply⟩, st)
  else .ok ()

/-- The connection ends before the line that ends an answer. -/
def connectionLost : CommEx := ⟨false, "connection closed unexpectedly".toList⟩

/-- The line ends an answer. -/
def isDot (line : Text) : Bool := line.head? = some '.'

/-! ### `doxover` -/

def xoverCommand (low high : UInt64) : Text :=
  if low = high then "XOVER ".toList ++ printUlong low
  else "XOVER ".toList ++ printUlong low ++ '-' :: printUlong high

/-- A field that is read as a number has digits or spaces and then something else. -/
def nonNumeric (i : Nat) (field : Text) : Bool :=
  let numeric := fun c => c.isDigit || isspace c
  (i = 0 || i = 6 || i = 7) && !(field.dropWhile numeric).isEmpty && !(field.takeWhile numeric).isEmpty

/-- The loop over the fields of an overview line, from field `i`: how many it gets through, of ten. -/
def countFields (i : Nat) : List Text → Nat
  | [] => i
  | t :: ts => if i < 10 then if nonNumeric i t then i else countFields (i + 1) ts else i

/-- The header of an overview line. A line has less than 2^31 bytes, so its subject is none at which `set` throws. -/
def overviewHeader (decodeTextdate : Text → Int64) (serverid : UInt64) (group : Text) (t : List Text) : NntpHeader :=
  let f := fun i => t.getD i []
  .filled serverid group (f 1) (f 2) (atoul (f 0)) (decodeTextdate (f 3)) (atoul (f 6)) (atoul (f 7)) (f 4) (f 5)

def streamingError : CommEx :=
    ⟨false, "XOVER streaming error: recieved start of next range without end of current.  Setting maxstreaming to 0. (You may wish to decrease or disable maxstreaming for this server in your ngetrc.)".toList⟩

section Xover
variable (decodeTextdate : Text → Int64) (serverid : UInt64) (group : Text) (now : Int64)

/-- The loop over the lines of one range, with the number that is expected next. `streamed` is the number
    of commands whose answers are still to come. -/
def doxoverLines (low high : UInt64) (streamed : Int) : List Text → UInt64 → Session → SessionM Session
  | [], _, st => .error (connectionLost, st)
  | line :: lines, last, st =>
    if isDot line then .ok st
    else
      let t := CString.split '\t' (cstr line)
      let i := countFields 0 t
      if i ≤ 1 && streamed ≠ 0 && atoul (t.getD 0 []) = 224 then
        .error (streamingError, { st with maxstreaming := 0, xoverWarn := st.xoverWarn + 1 })
      else if 7 < i then
        let nh := overviewHeader decodeTextdate serverid group t
        let an := nh.articlenum
        let st := { st with cache := (st.cache.additem nh now).1 }
        if an < low || high < an || an < last then
          doxoverLines low high streamed lines last { st with xoverWarn := st.xoverWarn + 1 }
        else doxoverLines low high streamed lines (an + 1) st
      else doxoverLines low high streamed lines last { st with xoverWarn := st.xoverWarn + 1 }

/-- The loop that sends commands ahead of their answers, up to `maxstreaming` of them. -/
def sendXovers : List (UInt64 × UInt64) → Int → Session → List (UInt64 × UInt64) × Int × Session
  | [], streamed, st => ([], streamed, st)
  | w :: ws, streamed, st =>
    if streamed ≤ st.maxstreaming.toInt then sendXovers ws (streamed + 1) { st with sent := st.sent ++ [xoverCommand w.2 w.1] }
    else (w :: ws, streamed, st)

/-- The loop over the ranges; the first list is what is still to be answered, the second what is still to
    be sent. -/
def doxoverRanges (xover : UInt64 → UInt64 → Answer) :
    List (UInt64 × UInt64) → List (UInt64 × UInt64) → Int → Session → SessionM Session
  | [], _, _, st => .ok st
  | r :: rs, ws, streamed, st => do
    let (ws, streamed, st) := sendXovers ws streamed st
    let answer := xover r.2 r.1
    chkreply st answer.reply
    let st ← doxoverLines decodeTextdate serverid group now r.2 r.1 (streamed - 1) answer.lines r.2 st
    doxoverRanges xover rs ws (streamed - 1) st

/-- `doxover`. -/
def doxover (xover : UInt64 → UInt64 → Answer) (r : Nrange) (st : Session) : SessionM Session :=
  if r.empty then .ok st
  else doxoverRanges decodeTextdate serverid group now xover r.rlist.entries r.rlist.entries 0 st

end Xover

/-! ### `dolistgroup` -/

/-- The loop of `dolistgroup`. -/
def dolistgroupLines (st : Session) : List Text → Nrange → SessionM Nrange
  | [], _ => .error (connectionLost, st)
  | line :: lines, existing =>
    if isDot line then .ok existing
    else
      let cbuf := cstr line
      if cbuf.isEmpty || !(scan cbuf).rest.isEmpty then dolistgroupLines st lines existing
      else dolistgroupLines st lines (existing.insertOne (atoul cbuf))

/-- `dolistgroup`, on an empty range. -/
def dolistgroup (answer : Answer) (st : Session) : SessionM Nrange := do
  chkreply st answer.reply
  dolistgroupLines st answer.lines ∅

/-! ### `nntp_dogroup` -/

/-- The string behind the first space, `strchr(s, ' ') + 1`. -/
def afterSpace (s : Text) : Option Text :=
  match s.dropWhile (· ≠ ' ') with
  | [] => none
  | _ :: rest => some rest

/-- The numbers of the reply to `GROUP`; none stands for the null pointer of a missing space. -/
def groupNumbers (reply : Text) : Option (UInt64 × UInt64 × UInt64) := do
  let p ← afterSpace reply
  let p2 ← afterSpace p
  let p3 ← afterSpace p2
  some (atoul p, atoul p2, atoul p3)

/-- The `int` setting where the source computes with it in unsigned arithmetic. -/
def UpdateConfig.maxheadersUlong (cfg : UpdateConfig) : UInt64 := cfg.maxheaders.toInt64.toUInt64

/-- The low end after `maxheaders` has raised it. -/
def effectiveLow (cfg : UpdateConfig) (low high : UInt64) : UInt64 :=
  if cfg.maxheaders ≠ -1 && (cfg.maxheadersUlong ≤ high && low < high - cfg.maxheadersUlong + 1) then
    high - cfg.maxheadersUlong + 1
  else low

/-- The branch for `LISTGROUP`: what the server no longer has is flushed, and what is cached is taken out of
    what it has. -/
def listgroupUpdate (cfg : UpdateConfig) (existing : Nrange) (low : UInt64) (st : Session) (now : Int64) : Session × Nrange :=
  let existing := if cfg.maxheaders ≠ -1 then existing.clipToMaxTotal cfg.maxheadersUlong else existing
  let (cache, _, midinfo) := st.cache.flush cfg.serverid ((∅ : Nrange).invert existing) st.midinfo now
  let cache := cache.setServinfo cfg.serverid { cache.servinfo cfg.serverid with low := existing.low.getD low }
  ({ st with cache, midinfo }, cache.getxrangeOf cfg.serverid existing)

/-- What is cached below the low end is flushed. -/
def flushBelow (cfg : UpdateConfig) (low : UInt64) (st : Session) (now : Int64) : Session :=
  if (st.cache.servinfo cfg.serverid).low < low then
    let (cache, _, midinfo) := st.cache.flushlow cfg.serverid low st.midinfo now
    { st with cache, midinfo }
  else st

/-- The range of the other branch: the server's interval less the cached numbers, or less the cached
    interval. -/
def intervalRange (cfg : UpdateConfig) (low high : UInt64) (cache : NntpCache) : Nrange :=
  let servinfo := cache.servinfo cfg.serverid
  if cfg.fullxover ≠ 0 then cache.getxrange cfg.serverid low high
  else if servinfo.high = 0 then (∅ : Nrange).insert low high
  else
    let r := if servinfo.high < high then (∅ : Nrange).insert (servinfo.high + 1) high else ∅
    if low < servinfo.low then r.insert low (servinfo.low - 1) else r

/-- The other branch. -/
def intervalUpdate (cfg : UpdateConfig) (low high : UInt64) (st : Session) (now : Int64) : Session × Nrange :=
  let low := effectiveLow cfg low high
  let st := flushBelow cfg low st now
  (st, intervalRange cfg low high st.cache)

/-- The branches of `nntp_dogroup` up to the call of `doxover`, with the range that it is called with. -/
def headerUpdate (cfg : UpdateConfig) (answers : Answers) (low high : UInt64) (st : Session) (now : Int64) :
    SessionM (Session × Nrange) :=
  let st := { st with cache := st.cache.getserverinfo cfg.serverid }
  let servinfo := st.cache.servinfo cfg.serverid
  if servinfo.high ≠ 0 && low ≤ servinfo.high && cfg.fullxover = 2 then do
    let st := { st with sent := st.sent ++ ["LISTGROUP".toList] }
    let existing ← dolistgroup answers.listgroup st
    .ok (listgroupUpdate cfg existing low st now)
  else .ok (intervalUpdate cfg low high st now)

/-- `nntp_dogroup(group, getheaders, forcefullxover)`, with the `fullxover` that it settles on in `cfg`. -/
def nntpDogroup (decodeTextdate : Text → Int64) (cfg : UpdateConfig) (answers : Answers) (group : Text)
    (getheaders : Bool) (now : Int64) (st : Session) : SessionM Session :=
  if st.curgroup ≠ some group || getheaders then do
    let st := { st with curgroup := none, sent := st.sent ++ ["GROUP ".toList ++ group] }
    chkreply st answers.group
    match groupNumbers answers.group with
    | none => .error (connectionLost, st)
    | some (_, low, high) =>
      let st := { st with curgroup := some group }
      if getheaders then do
        let (st, r) ← headerUpdate cfg answers low high st now
        doxover decodeTextdate cfg.serverid group now answers.xover r st
      else .ok st
  else .ok st

end Nget

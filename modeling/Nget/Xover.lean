import Nget.Dogroup

/-! `doxover` (`prot_nntp.cc`) with what goes over the connection and its counter `realtotal`. The server
    answers each command when it is written, and `doxover` reads the lines of the answers in order. -/

namespace Nget
open CString

/-- What is written to the connection and what is read from it: the command of a range, the status line of a
    reply, a line of it, and the line that ends it. -/
inductive Traffic where
  | command (range : UInt64 × UInt64)
  | status (line : Text)
  | line (line : Text)
  | terminator (line : Text)
deriving DecidableEq

/-- What the server answers to a command, up to the terminator. -/
structure XoverAnswer where
  reply : Text
  lines : List Text

/-- The lines that the server sends. -/
def XoverAnswer.sent (answer : XoverAnswer) : List Text := answer.reply :: (answer.lines ++ [".".toList])

/-- The state of a run, with the commands that were written and the lines that are still to be read. -/
structure Streaming where
  session : Session
  commands : List (UInt64 × UInt64) := []
  pending : List Text := []
  traffic : List Traffic := []
  realtotal : UInt64 := 0

/-- What stops a run: an exception, an assertion that fails, or a wait for a line when every answer was
    read. -/
inductive XoverStop where
  | comm (e : CommEx)
  | assertion
  | waiting
deriving DecidableEq

abbrev StreamingM (α : Type) := Except (XoverStop × Streaming) α

section
variable (decodeTextdate : Text → Int64) (serverid : UInt64) (group : Text) (now : Int64)
variable (answer : Nat → UInt64 × UInt64 → XoverAnswer)

/-- The command of a range is written. -/
def Streaming.putXover (st : Streaming) (w : UInt64 × UInt64) : Streaming :=
  { st with
    session := { st.session with sent := st.session.sent ++ [xoverCommand w.2 w.1] }
    commands := st.commands ++ [w]
    pending := st.pending ++ (answer st.commands.length w).sent
    traffic := st.traffic ++ [.command w] }

/-- The status line of a reply is read and checked. -/
def Streaming.getStatus (st : Streaming) : StreamingM Streaming :=
  match st.pending with
  | [] => .error (.waiting, st)
  | cbuf :: pending =>
    let st := { st with pending, traffic := st.traffic ++ [.status cbuf] }
    match chkreply st.session cbuf with
    | .error (e, session) => .error (.comm e, { st with session })
    | .ok () => .ok st

/-- `realtotal -= n; assert(ort>=realtotal)`. -/
def Streaming.reduce (st : Streaming) (n : UInt64) : StreamingM Streaming :=
  let ort := st.realtotal
  let st := { st with realtotal := st.realtotal - n }
  if st.realtotal ≤ ort then .ok st else .error (.assertion, st)

/-- The loop over the lines of one range, which gives the number that is expected next. -/
def xoverLines (low high : UInt64) (streamed : Int) : List Text → UInt64 → Streaming → StreamingM (UInt64 × Streaming)
  | [], _, st => .error (.waiting, { st with pending := [] })
  | line :: pending, last, st =>
    if isDot line then .ok (last, { st with pending, traffic := st.traffic ++ [.terminator line] })
    else
      let st := { st with pending, traffic := st.traffic ++ [.line line] }
      let warned := fun st : Streaming => { st with session := { st.session with xoverWarn := st.session.xoverWarn + 1 } }
      let t := CString.split '\t' (cstr line)
      let i := countFields 0 t
      if i ≤ 1 && streamed ≠ 0 && atoul (t.getD 0 []) = 224 then
        .error (.comm streamingError, warned { st with session := { st.session with maxstreaming := 0 } })
      else if 7 < i then
        let nh := overviewHeader decodeTextdate serverid group t
        let an := nh.articlenum
        let st := { st with session := { st.session with cache := (st.session.cache.additem nh now).1 } }
        if an < low || high < an || an < last then xoverLines low high streamed pending last (warned st)
        else
          match st.reduce (an - last) with
          | .error e => .error e
          | .ok st => xoverLines low high streamed pending (an + 1) st
      else xoverLines low high streamed pending last (warned st)

/-- The loop that writes commands ahead of their replies. -/
def writeXovers : List (UInt64 × UInt64) → Int → Streaming → List (UInt64 × UInt64) × Int × Streaming
  | [], streamed, st => ([], streamed, st)
  | w :: ws, streamed, st =>
    if streamed ≤ st.session.maxstreaming.toInt then writeXovers ws (streamed + 1) (st.putXover answer w)
    else (w :: ws, streamed, st)

/-- The loop over the ranges: those whose replies are still to be read, and those whose commands are still to
    be written. -/
def xoverRanges : List (UInt64 × UInt64) → List (UInt64 × UInt64) → Int → Streaming → StreamingM Streaming
  | [], _, _, st => .ok st
  | r :: rs, ws, streamed, st => do
    let (ws, streamed, st) := writeXovers answer ws streamed st
    let st ← st.getStatus
    let (last, st) ← xoverLines decodeTextdate serverid group now r.2 r.1 (streamed - 1) st.pending r.2 st
    let st ← st.reduce (r.1 - last + 1)
    xoverRanges rs ws (streamed - 1) st

/-- `doxover`. -/
def doxoverStreaming (r : Nrange) (session : Session) : StreamingM Streaming :=
  if r.empty then .ok { session }
  else
    xoverRanges decodeTextdate serverid group now answer r.rlist.entries r.rlist.entries 0
      { session, realtotal := r.getTotal }

end
end Nget

import Nget.Buffy

/-! Reading an article from a connection: `nntp_dogetarticle` and the write of the temp file in
    `nntp_doarticle` (`prot_nntp.cc`), and `doarticle` of ngetlite (`litenntp.cc`). -/

namespace Nget
open CString

/-- What a connection still gives: bytes, and then the end of the stream or an error that a read throws. -/
structure Incoming where
  bytes : Text
  failure : Option Text := none
deriving DecidableEq

/-- A `TransportExError`, or a `TransportExFatal`. -/
structure TransportEx where
  fatal : Bool
  text : Text
deriving DecidableEq

/-- `bgets` on a connection: the count of bytes that it returns, the line, and what is left. The count is an `int` in the
    source, which is the same for lines of less than 2^31 bytes. -/
def bgetsConn (failure : Option Text) : Text → Except Text (Nat × Text × Text)
  | [] =>
    match failure with
    | some e => .error e
    | none => .ok (0, [], [])
  | i :: f =>
    if i = '\n' then .ok (1, [], f)
    else
      match bgetsConn failure f with
      | .error e => .error e
      | .ok (rcount, buf, f) => .ok (rcount + 1, if i = '\r' then buf else i :: buf, f)

def connectionClosed : TransportEx := ⟨false, "nntp_getline: connection closed unexpectedly".toList⟩

/-- The line is the end of the article: `cbuf[0]=='.'` and `cbuf[1]==0`. -/
def isEndMark (cbuf : Text) : Bool := cbuf = ".".toList

/-- The line without the dot that was put before it. -/
def unstuffed (cbuf : Text) : Text := if cbuf.head? = some '.' then cbuf.tail else cbuf

/-! ### nget -/

/-- `Connection::getline`, with the line as the C string `cbuf`. -/
def Incoming.getline (s : Incoming) : Except TransportEx (Int × Text × Incoming) :=
  match bgetsConn s.failure s.bytes with
  | .error e => .error ⟨false, "nntp_getline: ".toList ++ e⟩
  | .ok (i, line, f) =>
    if (i : Int) ≤ 0 then .error connectionClosed else .ok (i, cstr line, { s with bytes := f })

/-- The counters of `arinfo`. -/
structure Arinfo where
  linesdone : Int := 0
  bytesdone : Int := 0
deriving DecidableEq

/-- What the check of the line count reads: the count of the overview, the server's leniences and the option. -/
structure LineCheck where
  linestot : Int
  lineleniencelow : Int
  lineleniencehigh : Int
  unequalLineError : Bool

/-- The loop of `nntp_dogetarticle`, for so many lines at most. -/
def dogetarticleLoop : Nat → Bool → Arinfo → List Text → Incoming → Option (Except TransportEx (Arinfo × List Text × Incoming))
  | 0, _, _, _, _ => none
  | fuel + 1, header, ari, buf, s =>
    match s.getline with
    | .error e => some (.error e)
    | .ok (glr, cbuf, s) =>
      if isEndMark cbuf then some (.ok (ari, buf, s))
      else
        let lp := unstuffed cbuf
        let ari : Arinfo := ⟨ari.linesdone + 1, ari.bytesdone + glr⟩
        if header && lp.isEmpty then dogetarticleLoop fuel false { ari with linesdone := 0 } (buf ++ [lp]) s
        else dogetarticleLoop fuel header ari (buf ++ [lp]) s

/-- `nntp_dogetarticle`. Each line takes at least one byte. -/
def nntpDogetarticle (check : LineCheck) (s : Incoming) : Option (Except TransportEx (Arinfo × List Text × Incoming)) :=
  match dogetarticleLoop (s.bytes.length + 1) true {} [] s with
  | none => none
  | some (.error e) => some (.error e)
  | some (.ok (ari, buf, s)) =>
    let equal := check.linestot + check.lineleniencelow ≤ ari.linesdone &&
      ari.linesdone ≤ check.linestot + check.lineleniencehigh
    if !equal && check.unequalLineError then some (.error ⟨true, "unequal line count and unequal_line_error is true".toList⟩)
    else some (.ok (ari, buf, s))

/-- One round of `nntp_doarticle` after the reply to `ARTICLE`, with the contents of the temp file before and
    afterwards. -/
def doarticleRound (check : LineCheck) (s : Incoming) (fn : Option Text) :
    Option (Except TransportEx (Arinfo × Incoming) × Option Text) :=
  match nntpDogetarticle check s with
  | none => none
  | some (.error e) => some (.error e, fn)
  | some (.ok (ari, buf, s)) => some (.ok (ari, s), some (buf.flatMap (· ++ ['\n'])))

/-! ### ngetlite -/

namespace Lite

/-- `c_prot_nntp::getline` of ngetlite. -/
def getline (s : Incoming) : Except TransportEx (Int × Text × Incoming) :=
  match bgetsConn s.failure s.bytes with
  | .error e => .error ⟨false, "nntp_getline: ".toList ++ e⟩
  | .ok (i, line, f) =>
    if (i : Int) = 0 then .error connectionClosed else .ok (i, cstr line, { s with bytes := f })

/-- What the loop of `doarticle` counts. -/
structure Counts where
  rlines : Nat := 0
  rbytes : Int := 0
  hlines : Nat := 0
deriving DecidableEq

/-- The loop of `doarticle`, for so many lines at most, with what was written to the temp file. -/
def doarticleLoop : Nat → Bool → Counts → Text → Incoming → Option (Except TransportEx (Counts × Incoming) × Text)
  | 0, _, _, _, _ => none
  | fuel + 1, header, counts, f, s =>
    match getline s with
    | .error e => some (.error e, f)
    | .ok (glr, cbuf, s) =>
      if isEndMark cbuf then some (.ok (counts, s), f)
      else
        let lp := unstuffed cbuf
        let counts := { counts with rlines := counts.rlines + 1, rbytes := counts.rbytes + glr }
        if header && lp.isEmpty then
          doarticleLoop fuel false { counts with hlines := counts.rlines, rlines := 0 } (f ++ (lp ++ ['\n'])) s
        else doarticleLoop fuel header counts (f ++ (lp ++ ['\n'])) s

/-- The temp file and the output file. -/
structure Files where
  temp : Option Text := none
  outfile : Option Text := none
deriving DecidableEq

/-- `doarticle` after the reply to `ARTICLE`, for an output file that is not there. -/
def doarticle (s : Incoming) : Option (Except TransportEx (Counts × Incoming) × Files) :=
  match doarticleLoop (s.bytes.length + 1) true {} [] s with
  | none => none
  | some (.error e, f) => some (.error e, { temp := some f })
  | some (.ok (counts, s), f) => some (.ok (counts, s), { outfile := some f })

end Lite
end Nget

import Nget.Buffy
import Nget.Lib.RingBuffer

/-! The buffer that files and connections are read through (`c_buffy` in `buffy.h`). A step that gives nothing
    has asked `bfill` to write where it must not, or has read for more rounds than it was given. -/

namespace Nget
open CString

/-- What a class derived from `c_buffy` reads: asked for at most `l` bytes, `bfill` gives the next ones. It may
    give fewer, but none only when nothing is left (`rest`). -/
structure Bfill (σ : Type) where
  bfill : σ → Nat → Text × σ
  rest : σ → Text
  length_le : ∀ s l, (bfill s l).1.length ≤ l
  rest_eq : ∀ s l, rest s = (bfill s l).1 ++ rest (bfill s l).2
  at_end : ∀ s l, 0 < l → (bfill s l).1 = [] → rest s = []

/-- A text that comes in short reads: each but those behind the list gives at most one byte more than it lists. -/
def Bfill.short : Bfill (Text × List Nat) where
  bfill s l := (s.1.take (min l ((s.2.head?.getD s.1.length) + 1)),
    s.1.drop (min l ((s.2.head?.getD s.1.length) + 1)), s.2.tail)
  rest s := s.1
  length_le s l := by simp only [List.length_take]; omega
  rest_eq s l := (List.take_append_drop _ s.1).symm
  at_end s l hl hnil := by
    rcases List.take_eq_nil_iff.mp hnil with hzero | hnil
    · omega
    · exact hnil

structure CBuffy (σ : Type) where
  bhead : Nat := 0
  btail : Nat := 0
  buf : Nat → Char := fun _ => nul
  src : σ

namespace CBuffy
variable {σ : Type}

def bufsize : Nat := 2048

def bufmask : Nat := 2047

def buftailfree (b : CBuffy σ) : Nat :=
  if b.btail ≥ b.bhead then bufsize - b.btail - (if b.bhead = 0 then 1 else 0) else b.bhead - b.btail - 1

def inchead (b : CBuffy σ) (i : Nat) : CBuffy σ := { b with bhead := (b.bhead + i) &&& bufmask }

def inctail (b : CBuffy σ) (i : Nat) : CBuffy σ := { b with btail := (b.btail + i) &&& bufmask }

/-- The cells from the tail on that hold nothing unread, up to the end of the array. -/
def freeRun (b : CBuffy σ) : Nat := if b.btail ≥ b.bhead then bufsize - b.btail else b.bhead - b.btail

def dofill (B : Bfill σ) (b : CBuffy σ) : Option (Nat × CBuffy σ) :=
  if b.buftailfree ≤ b.freeRun then
    let (bytes, src) := B.bfill b.src b.buftailfree
    let b := { b with buf := RingBuffer.write b.buf b.btail bytes, src := src }
    if bytes.length = 0 then some (0, b) else some (bytes.length, b.inctail bytes.length)
  else none

def beof (B : Bfill σ) (b : CBuffy σ) : Option (Bool × CBuffy σ) :=
  if b.btail ≠ b.bhead then some (false, b)
  else (dofill B b).map fun (i, b) => (i = 0, b)

def bpeek (B : Bfill σ) (b : CBuffy σ) : Option (Option Char × CBuffy σ) :=
  if b.bhead = b.btail then
    (dofill B b).map fun (i, b) => if i = 0 then (none, b) else (some (b.buf b.bhead), b)
  else some (some (b.buf b.bhead), b)

def bget (B : Bfill σ) (b : CBuffy σ) : Option (Option Char × CBuffy σ) :=
  if b.bhead = b.btail then
    (dofill B b).map fun (i, b) => if i = 0 then (none, b) else (some (b.buf b.bhead), b.inchead 1)
  else some (some (b.buf b.bhead), b.inchead 1)

end CBuffy

/-- What the line readers need, and the other calls that read. -/
structure Reader (σ : Type) where
  bpeek : σ → Option (Option Char × σ)
  bget : σ → Option (Option Char × σ)
  beof : σ → Option (Bool × σ)

def Reader.buffered {σ : Type} (B : Bfill σ) : Reader (CBuffy σ) := ⟨CBuffy.bpeek B, CBuffy.bget B, CBuffy.beof B⟩

/-- The stream itself, read byte by byte. -/
def Reader.unbuffered : Reader Text where
  bpeek f := some (f.head?, f)
  bget f := some (f.head?, f.tail)
  beof f := some (f.isEmpty, f)

/-- `i == tok`, of a byte that is an `int` from 0 on and a `char`, which may be signed. -/
def isTok (signed : Bool) (tok i : Char) : Bool := i = tok && !(signed && 0x80 ≤ tok.toNat)

namespace Reader
variable {σ : Type}

/-- The loop of `bgets`, for so many rounds: the count of bytes that it swallows, and the line. -/
def bgetsLoop (R : Reader σ) : Nat → Nat → Text → σ → Option (Nat × Text × σ)
  | 0, _, _, _ => none
  | rounds + 1, rcount, buf, s =>
    (R.bget s).bind fun
      | (none, s) => some (rcount, buf, s)
      | (some i, s) =>
        if i = '\r' then bgetsLoop R rounds (rcount + 1) buf s
        else if i = '\n' then some (rcount + 1, buf, s)
        else bgetsLoop R rounds (rcount + 1) (buf ++ [i]) s

def bgets (R : Reader σ) (rounds : Nat) (s : σ) : Option (Nat × Text × σ) := bgetsLoop R rounds 0 [] s

/-- The loop of `btoks`: the number of tokens so far, the buffer, and where in it each token starts. -/
def btoksLoop (R : Reader σ) (signed : Bool) (tok : Char) (max : Nat) (tokfinal : Bool) :
    Nat → Nat → Text → List Nat → σ → Option (Nat × Text × List Nat × σ)
  | 0, _, _, _, _ => none
  | rounds + 1, num, buf, toks, s =>
    (R.bget s).bind fun
      | (none, s) => some (num, buf, toks, s)
      | (some i, s) =>
        if isTok signed tok i && num < max then
          btoksLoop R signed tok max tokfinal rounds (num + 1) (buf ++ [nul]) (toks ++ [buf.length + 1]) s
        else if isTok signed tok i && tokfinal then btoksLoop R signed tok max tokfinal rounds (num + 1) buf toks s
        else if !isTok signed tok i && i = '\r' then btoksLoop R signed tok max tokfinal rounds num buf toks s
        else if !isTok signed tok i && i = '\n' then some (num, buf, toks, s)
        else btoksLoop R signed tok max tokfinal rounds num (if num ≤ max then buf ++ [i] else buf) toks s

/-- `btoks`: the number of tokens, and those that `toks` points at. -/
def btoks (R : Reader σ) (signed : Bool) (tok : Char) (max : Nat) (tokfinal : Bool) (rounds : Nat) (s : σ) :
    Option (Nat × List Text × σ) :=
  (btoksLoop R signed tok max tokfinal rounds 1 [] [0] s).map fun (num, buf, toks, s) =>
    (num, (toks.take (min num max)).map fun i => cstr (buf.drop i), s)

/-- A call of the reader. -/
inductive Call where
  | bpeek
  | bget
  | bgets
  | btoks (tok : Char) (max : Nat) (tokfinal : Bool)
  | beof

/-- What a call returns. -/
inductive Result where
  | byte (i : Option Char)
  | line (rcount : Nat) (buf : Text)
  | toks (num : Nat) (toks : List Text)
  | eof (eof : Bool)
deriving DecidableEq

def call (R : Reader σ) (signed : Bool) (rounds : Nat) (s : σ) : Call → Option (Result × σ)
  | .bpeek => (R.bpeek s).map fun (i, s) => (.byte i, s)
  | .bget => (R.bget s).map fun (i, s) => (.byte i, s)
  | .bgets => (R.bgets rounds s).map fun (n, buf, s) => (.line n buf, s)
  | .btoks tok max tokfinal => (R.btoks signed tok max tokfinal rounds s).map fun (n, toks, s) => (.toks n toks, s)
  | .beof => (R.beof s).map fun (eof, s) => (.eof eof, s)

/-- The calls one after the other, and what they return. -/
def calls (R : Reader σ) (signed : Bool) (rounds : Nat) : List Call → σ → Option (List Result × σ)
  | [], s => some ([], s)
  | c :: cs, s => (R.call signed rounds s c).bind fun (r, s) => (calls R signed rounds cs s).map fun (rs, s) => (r :: rs, s)

end Reader
end Nget

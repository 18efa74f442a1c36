import Nget.CString

/-! Reading a file through its buffer (`c_buffy` in `buffy.h`): what is left of the file is a text, and each
    read gives what it reads and what it leaves. How the file fills the buffer makes no difference to it. -/

namespace Nget
open CString

/-- `bgets`: the line, without the carriage returns that are in it. -/
def bgets : Text → Text × Text
  | [] => ([], [])
  | i :: f =>
    if i = '\r' then bgets f
    else if i = '\n' then ([], f)
    else (i :: (bgets f).1, (bgets f).2)

/-- `bgetsp`. -/
def bgetsp (f : Text) : Text × Text := (cstr (bgets f).1, (bgets f).2)

/-- The loop of `btoks`, with `num` tokens so far of `max` that are kept: their number in the end, the kept
    tokens from the last one on, and what is left. -/
def btoksLoop (tok : Char) (max : Nat) (tokfinal : Bool) : Nat → Text → Nat × List Text × Text
  | num, [] => (num, [[]], [])
  | num, i :: f =>
    if i = tok && num < max then
      let (n, toks, f) := btoksLoop tok max tokfinal (num + 1) f
      (n, [] :: toks, f)
    else if i = tok && tokfinal then btoksLoop tok max tokfinal (num + 1) f
    else if i ≠ tok && i = '\r' then btoksLoop tok max tokfinal num f
    else if i ≠ tok && i = '\n' then (num, [[]], f)
    else
      let (n, toks, f) := btoksLoop tok max tokfinal num f
      (n, if num ≤ max then toks.modifyHead (i :: ·) else toks, f)

/-- `btoks`: how many tokens the line has, the first `max` of them, and what is left. The number is an `int` in the source,
    which is the same for lines of less than 2^31 tokens. -/
def btoks (tok : Char) (max : Nat) (tokfinal : Bool) (f : Text) : Nat × List Text × Text :=
  let (num, toks, f) := btoksLoop tok max tokfinal 1 f
  (num, toks.map cstr, f)

example : btoks '\t' 3 true "a\t\r\tbc\nd".toList = (3, ["a".toList, [], "bc".toList], "d".toList) := by decide

end Nget

import Nget.NntpFile

/-! `c_nntp_header::set` (`cache.cc`): what an overview line says of the message, and the part number and
    count that its subject ends with. A pointer into the subject is its index. -/

namespace Nget
open CString

/-- What `parsepnum` sets, and the count of parts that it returns. -/
structure Pnum where
  req : Int32
  partnum : Int32
  partoff : Int32
  tailoff : Int32
deriving DecidableEq

/-- The loop from `soff` down: the index of `m` in the subject, the first character excepted. -/
def findBefore (str : Text) (m : Char) : Nat → Option Nat
  | 0 => none
  | p + 1 => if str[p + 1]? = some m then some (p + 1) else findBefore str m p

/-- The number at the index `p`, when digits stand there and the character `stop` follows them. -/
def numberUpTo (str : Text) (p : Nat) (stop : Char) : Option Int32 :=
  let text := str.drop p
  let rest := (strtol text).2
  if rest.head? = some stop && rest.length < text.length then some (atoi text) else none

/-- `parsepnum`, with `soff` the index of the slash; none is the return value -1. -/
def parsepnum (str : Text) (soff : Nat) : Option Pnum :=
  let close := (str.drop (soff + 1)).takeWhile fun c => c ≠ ')' && c ≠ ']'
  match str[soff + 1 + close.length]? with
  | none => none
  | some m2 =>
    match findBefore str (if m2 = ')' then '(' else '[') soff with
    | none => none
    | some p =>
      match numberUpTo str (p + 1) '/', numberUpTo str (soff + 1) m2 with
      | some partnum, some req =>
        if req < partnum then none
        else
          some ⟨if partnum = 0 then 0 else req, partnum, Int32.ofNat (p + 1), Int32.ofNat (soff + 1 + close.length)⟩
      | _, _ => none

/-- The loop of `set` over the slashes from the index `s` down, with the `req` that the last one left. The
    slash that gives a part number comes with what `parsepnum` found. -/
def findPnum (str : Text) : Nat → Int32 → Int32 × Option (Nat × Pnum)
  | 0, req => (req, none)
  | s + 1, req =>
    if str[s + 1]? = some '/' then
      match parsepnum str (s + 1) with
      | some p => if 0 ≤ p.req then (p.req, some (s + 1, p)) else findPnum str s p.req
      | none => findPnum str s (-1)
    else findPnum str s req

/-- What `set` fills in. The references are split at each space; a part number in the subject is replaced by `*`, except
    in the description that has the number 0. -/
def NntpHeader.filled (serverid : UInt64) (group str a : Text) (anum : UInt64) (d : Int64) (b l : UInt64)
    (mid refstr : Text) : NntpHeader :=
  let references := if refstr.isEmpty then [] else CString.split ' ' refstr
  let header := fun req partoff partnum tailoff subject =>
    { req, partoff, author := a, subject, references, serverid, group, partnum, tailoff, articlenum := anum,
      date := d, bytes := b, lines := l, messageid := mid : NntpHeader }
  match findPnum str (str.length - 3) 0 with
  | (req, some (s, p)) =>
    header req p.partoff p.partnum p.tailoff
      (if req = 0 then str else str.take p.partoff.toNatClampNeg ++ '*' :: str.drop s)
  | (req, none) => header req (-1) (-1) (-1) str

/-- `subject.append(str,partoff)` throws: as a length, an offset that is negative is beyond every string. -/
def appendThrows (str : Text) : Bool :=
  match findPnum str (str.length - 3) 0 with
  | (req, some (_, p)) => req ≠ 0 && p.partoff < 0
  | (_, none) => false

/-- `set`; none is the `length_error` of `append`. -/
def NntpHeader.set (serverid : UInt64) (group str a : Text) (anum : UInt64) (d : Int64) (b l : UInt64)
    (mid refstr : Text) : Option NntpHeader :=
  if appendThrows str then none else some (.filled serverid group str a anum d b l mid refstr)

theorem NntpHeader.set_eq_some_iff {serverid : UInt64} {group str a : Text} {anum : UInt64} {d : Int64} {b l : UInt64}
    {mid refstr : Text} {h : NntpHeader} : NntpHeader.set serverid group str a anum d b l mid refstr = some h ↔
      appendThrows str = false ∧ NntpHeader.filled serverid group str a anum d b l mid refstr = h := by
  unfold NntpHeader.set
  cases appendThrows str <;> simp

@[simp] theorem NntpHeader.filled_serverid {serverid : UInt64} {group str a : Text} {anum : UInt64} {d : Int64} {b l : UInt64}
    {mid refstr : Text} : (NntpHeader.filled serverid group str a anum d b l mid refstr).serverid = serverid := by
  unfold NntpHeader.filled
  dsimp only
  split <;> rfl

@[simp] theorem NntpHeader.filled_articlenum {serverid : UInt64} {group str a : Text} {anum : UInt64} {d : Int64} {b l : UInt64}
    {mid refstr : Text} : (NntpHeader.filled serverid group str a anum d b l mid refstr).articlenum = anum := by
  unfold NntpHeader.filled
  dsimp only
  split <;> rfl

/-- The subject of a part of a multipart post gives the part's number and count. -/
example : (NntpHeader.set 1 [] "file.bin (02/15)".toList [] 1 0 0 0 [] []).map (fun h => (h.partnum, h.req, h.subject)) =
    some (2, 15, "file.bin (*/15)".toList) := by decide

end Nget

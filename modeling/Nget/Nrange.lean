import Nget.Lib.SortedMap

/-! `c_nrange` (`nrange.h`, `nrange.cc`): a set of article numbers as a map from the high end of each
    range to its low end. A loop over map iterators is a recursion over the entries that it visits. -/

namespace Nget

/-- `c_nrange`. `rlist` has the high end of a range as the key and its low end as the value. -/
structure Nrange where
  rlist : SortedMap UInt64 UInt64 := ∅
deriving DecidableEq

namespace Nrange

def varmin : UInt64 := 0

/-- `ULONG_MAX`. -/
def varmax : UInt64 := 0xFFFFFFFFFFFFFFFF

instance : EmptyCollection Nrange := ⟨{}⟩

def empty (r : Nrange) : Bool := r.rlist.isEmpty

/-- The low end of the first range; none stands for the `runtime_error`. -/
def low (r : Nrange) : Option UInt64 := r.rlist.entries.head?.map (·.2)

/-- The high end of the last range; none stands for the `runtime_error`. -/
def high (r : Nrange) : Option UInt64 := r.rlist.entries.getLast?.map (·.1)

def getTotal (r : Nrange) : UInt64 := r.rlist.entries.foldl (fun tot i => tot + (i.1 - i.2 + 1)) 0

def numRanges (r : Nrange) : Nat := r.rlist.entries.length

def check (r : Nrange) (n : UInt64) : Bool :=
  match r.rlist.lowerBound n with
  | some i => i.2 ≤ n
  | none => false

/-- The second half of `insert(n)`: joins the range below `n`, if it ends at `n - 1`, to the range with
    high end `i` that `n` has been added to the bottom of, or to a new range. -/
def insertJoin (rlist : SortedMap UInt64 UInt64) (i : Option UInt64) (n : UInt64) : Nrange :=
  match if varmin < n then rlist.find? (n - 1) else none with
  | some j =>
    match i with
    | some k => ⟨(rlist.assign k j.2).erase j.1⟩
    | none => ⟨(rlist.assign n j.2).erase j.1⟩
  | none =>
    match i with
    | some _ => ⟨rlist⟩
    | none => ⟨rlist.assign n n⟩

/-- `insert(ulong n)`. -/
def insertOne (r : Nrange) (n : UInt64) : Nrange :=
  match r.rlist.lowerBound n with
  | some i =>
    if i.2 ≤ n then r
    else if i.2 = n + 1 then insertJoin (r.rlist.assign i.1 n) (some i.1) n
    else insertJoin r.rlist none n
  | none => insertJoin r.rlist none n

/-- The keys from `j` on and before the iterator `i`, none being `end()`: what `erase(j, i)` erases. -/
def inSpan (j : UInt64) (i : Option (UInt64 × UInt64)) (k : UInt64) : Bool :=
  match i with
  | some i => j ≤ k && k < i.1
  | none => j ≤ k

/-- `insert(ulong l, ulong h)`. -/
def insert (r : Nrange) (l h : UInt64) : Nrange :=
  if r.rlist.isEmpty then ⟨r.rlist.assign h l⟩
  else
    let l1 := if varmin < l then l - 1 else l
    let h1 := if h < varmax then h + 1 else h
    match r.rlist.lowerBound l1 with
    | none => ⟨r.rlist.assign h l⟩
    | some j =>
      let i := r.rlist.lowerBound h
      if i = some j then
        if l < j.2 then
          if h1 < j.2 then ⟨r.rlist.assign h l⟩ else ⟨r.rlist.assign j.1 l⟩
        else r
      else
        let l := if j.2 < l then j.2 else l
        let rlist := r.rlist.filter fun e => !inSpan j.1 i e.1
        match i with
        | none => ⟨rlist.assign h l⟩
        | some i => if h1 < i.2 then ⟨rlist.assign h l⟩ else ⟨rlist.assign i.1 l⟩

/-- The loop of `remove`, over the ranges from `j` down. `--i` is taken before the body, so a range that
    the body adds below `j` is not visited. -/
def removeLoop (l h : UInt64) : List (UInt64 × UInt64) → SortedMap UInt64 UInt64 → SortedMap UInt64 UInt64
  | [], rlist => rlist
  | j :: is, rlist =>
    if j.1 ≤ h then
      if l ≤ j.1 then
        removeLoop l h is ((if j.2 < l then rlist.assign (l - 1) j.2 else rlist).erase j.1)
      else rlist
    else if j.2 ≤ h then
      if j.2 < l then (rlist.assign (l - 1) j.2).assign j.1 (h + 1)
      else removeLoop l h is (rlist.assign j.1 (h + 1))
    else removeLoop l h is rlist

/-- `remove(ulong l, ulong h)`. -/
def remove (r : Nrange) (l h : UInt64) : Nrange :=
  match r.rlist.lowerBound h with
  | some i => ⟨removeLoop l h (r.rlist.downFrom i.1) r.rlist⟩
  | none =>
    match r.rlist.lowerBound l with
    | some i => ⟨removeLoop l h (r.rlist.downFrom i.1) r.rlist⟩
    | none => r

/-- `remove(ulong n)`. -/
def removeOne (r : Nrange) (n : UInt64) : Nrange := r.remove n n

/-- The loop of `clip_to_max_total`, over the ranges from the highest down. -/
def clipLoop (r : Nrange) (num : UInt64) : List (UInt64 × UInt64) → UInt64 → Nrange
  | [], _ => r
  | i :: is, tot =>
    let tot := tot + (i.1 - i.2 + 1)
    if num ≤ tot then
      let newlow := i.2 + (tot - num)
      match r.low with
      | some low => if low ≠ newlow then r.remove low (newlow - 1) else r
      | none => r
    else clipLoop r num is tot

def clipToMaxTotal (r : Nrange) (num : UInt64) : Nrange := clipLoop r num r.rlist.entries.reverse 0

/-- One range of `invert`'s loop: the gap below it is inserted. -/
def invertStep (s : Nrange × UInt64) (i : UInt64 × UInt64) : Nrange × UInt64 :=
  (if s.2 ≠ i.2 then s.1.insert s.2 (i.2 - 1) else s.1, i.1 + 1)

/-- `this->invert(r)`: the complement of `r` is inserted. -/
def invert (this r : Nrange) : Nrange :=
  if r.empty then this.insert varmin varmax
  else
    let s := r.rlist.entries.foldl invertStep (this, varmin)
    if s.2 ≠ varmin then s.1.insert s.2 varmax else s.1

end Nrange
end Nget

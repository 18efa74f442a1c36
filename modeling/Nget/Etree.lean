import Nget.NntpFile

/-! Predicates on files from expressions in postfix order (`etree.cc`). An error is the text of what is thrown. -/

namespace Nget
open CString

/-- `strcasecmp` gives 0; `b` has no NUL and no capital letters. -/
def strcaseeq (a b : Text) : Bool := (cstr a).map Char.toLower = b

inductive Pred (α : Type) where
  | comparison (op : α → Bool)
  | predAnd (p1 p2 : Pred α)
  | predOr (p1 p2 : Pred α)

/-- `operator()`. -/
def Pred.eval {α : Type} (f : α) : Pred α → Bool
  | comparison op => op f
  | predAnd p1 p2 => p1.eval f && p2.eval f
  | predOr p1 p2 => p1.eval f || p2.eval f

def regExtended : Nat := 1

def regIcase : Nat := 2

def getfilesCasesensitive : UInt32 := 1

/-- What the predicates call: the compiling of a regular expression, which gives what it matches, the two
    decoders of dates, and what a part adds to the sums of its file. -/
structure EtreeCalls where
  regex : Text → Nat → Except Text (Text → Bool)
  decodeTextdate : Text → Except Text Int64
  decodeTextage : Text → Except Text Int64
  bytes : NntpPart → UInt64
  lines : NntpPart → UInt64

/-! ### Comparisons -/

def comparison {α T : Type} [LinearOrder T] (opstr : Text) (get : α → T) (v : T) : Except Text (Pred α) :=
  if opstr = "==".toList then .ok (.comparison fun f => get f = v)
  else if opstr = "!=".toList then .ok (.comparison fun f => get f ≠ v)
  else if opstr = "<".toList then .ok (.comparison fun f => get f < v)
  else if opstr = "<=".toList then .ok (.comparison fun f => get f ≤ v)
  else if opstr = ">".toList then .ok (.comparison fun f => get f > v)
  else if opstr = ">=".toList then .ok (.comparison fun f => get f ≥ v)
  else .error ("invalid op ".toList ++ cstr opstr ++ " for comparison".toList)

/-- `comparison_re`, of a member for which `eq` is the comparison with a regular expression. -/
def comparisonRe {α : Type} (calls : EtreeCalls) (opstr : Text) (eq : α → (Text → Bool) → Bool) (pattern : Text) (flags : Nat) :
    Except Text (Pred α) :=
  if opstr = "==".toList || opstr = "=~".toList then
    (calls.regex pattern flags).map fun re => .comparison fun f => eq f re
  else if opstr = "!=".toList || opstr = "!~".toList then
    (calls.regex pattern flags).map fun re => .comparison fun f => !eq f re
  else .error ("invalid op ".toList ++ cstr opstr ++ " for comparison_re".toList)

def invertOp (o : Text) : Text :=
  if o = "<".toList then ">".toList
  else if o = "<=".toList then ">=".toList
  else if o = ">".toList then "<".toList
  else if o = ">=".toList then "<=".toList
  else o

/-- `nntp_file_comparison_maker`: nothing when there is no such keyword. -/
def nntpFileComparisonMaker (calls : EtreeCalls) (i x y : Text) (reFlags : Nat) : Except Text (Option (Pred NntpFile)) :=
  if strcaseeq x "subject".toList then (comparisonRe calls i (fun f re => re f.subject) (cstr y) reFlags).map some
  else if strcaseeq x "author".toList then (comparisonRe calls i (fun f re => re f.author) (cstr y) reFlags).map some
  else if strcaseeq x "mid".toList || strcaseeq x "messageid".toList then
    (comparisonRe calls i (fun f re => re f.bamid) (cstr y) reFlags).map some
  else if strcaseeq x "bytes".toList then (comparison i (NntpFile.sumParts calls.bytes) (atoul (cstr y))).map some
  else if strcaseeq x "lines".toList then (comparison i (NntpFile.sumParts calls.lines) (atoul (cstr y))).map some
  else if strcaseeq x "req".toList then (comparison i (fun f : NntpFile => f.req.toInt) (atoi (cstr y)).toInt).map some
  else if strcaseeq x "have".toList then (comparison i (fun f : NntpFile => f.haveNum) (atoi (cstr y)).toInt).map some
  else if strcaseeq x "date".toList then do
    let v ← calls.decodeTextdate (cstr y)
    (comparison i (fun f : NntpFile => f.badate.toInt) v.toInt).map some
  -- An age is decoded to the date that it was, so that the comparison goes the other way.
  else if strcaseeq x "age".toList then do
    let v ← calls.decodeTextage (cstr y)
    (comparison (invertOp i) (fun f : NntpFile => f.badate.toInt) v.toInt).map some
  else if strcaseeq x "update".toList then do
    let v ← calls.decodeTextdate (cstr y)
    (comparison i (fun f : NntpFile => f.update.toInt) v.toInt).map some
  else if strcaseeq x "updateage".toList then do
    let v ← calls.decodeTextage (cstr y)
    (comparison (invertOp i) (fun f : NntpFile => f.update.toInt) v.toInt).map some
  else if strcaseeq x "references".toList then (comparisonRe calls i (fun f re => f.references.any re) (cstr y)
    reFlags).map some
  else .ok none

/-! ### Expressions -/

def isAnd (x : Text) : Bool := x = "&&".toList || x = "and".toList

def isOr (x : Text) : Bool := x = "||".toList || x = "or".toList

/-- The loop of `make_pred` over the words, with what it has of a comparison and the stack. -/
def makePredLoop {α : Type} (maker : Text → Text → Text → Nat → Except Text (Option (Pred α))) (reFlags : Nat) :
    Option Text → Option Text → List (Pred α) → List Text → Except Text (Pred α)
  | x, y, pstack, [] =>
    if 1 < pstack.length || x.isSome || y.isSome then .error "unfinished expression".toList
    else
      match pstack with
      | [] => .error "empty expression".toList
      | p :: _ => .ok p
  | none, y, pstack, i :: is =>
    if isAnd i || isOr i then
      match pstack with
      | py :: px :: pstack =>
        if isAnd i then makePredLoop maker reFlags none y (.predAnd px py :: pstack) is
        else makePredLoop maker reFlags none y (.predOr px py :: pstack) is
      | _ => .error ("not enough arguments for ".toList ++ cstr i)
    else makePredLoop maker reFlags (some i) y pstack is
  | some x, none, pstack, i :: is => makePredLoop maker reFlags (some x) (some i) pstack is
  | some x, some y, pstack, i :: is => do
    match ← maker i x y reFlags with
    | none => .error ("no match type ".toList ++ cstr x)
    | some p => makePredLoop maker reFlags none none (p :: pstack) is

def reFlagsOf (gflags : UInt32) : Nat := regExtended ||| if gflags &&& getfilesCasesensitive ≠ 0 then 0 else regIcase

def makePred {α : Type} (maker : Text → Text → Text → Nat → Except Text (Option (Pred α))) (eParts : List Text)
    (gflags : UInt32) : Except Text (Pred α) :=
  makePredLoop maker (reFlagsOf gflags) none none [] eParts

def makeNntpfilePred (calls : EtreeCalls) (eParts : List Text) (gflags : UInt32) : Except Text (Pred NntpFile) :=
  makePred (nntpFileComparisonMaker calls) eParts gflags

end Nget

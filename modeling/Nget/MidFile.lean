import Nget.MidInfo
import Nget.Buffy

/-! The file of a `c_mid_info`: `load`, which also merges the file into what is in memory, and `save` (`cache.h`,
    `cache.cc`), and the processes that share one file. Each `load` and each `save` has its lock of the file, so it is
    one step. The message-ids in memory are in the order of their insertion. -/

namespace Nget
open CString

namespace MidInfo

/-- `insert_full`. -/
def insertFull (m : MidInfo) (mid : Text) (a d : Int64) : MidInfo :=
  match m.states.find? (·.messageid = mid) with
  | some s =>
    if d = timeTMax1 && s.dateRemoved ≠ timeTMax1 then m
    else if s.dateRemoved ≠ timeTMax1 && d < s.dateRemoved then m
    else { m with states := m.states.filter (·.messageid ≠ mid) ++ [⟨mid, a, d⟩] }
  | none => { m with states := m.states ++ [⟨mid, a, d⟩] }

/-- The loop of `load`, for so many lines at most. -/
def loadLoop : Nat → MidInfo → Text → MidInfo
  | 0, m, _ => m
  | fuel + 1, m, f =>
    if f.isEmpty then m
    else
      let (i, t, f) := btoks ' ' 3 true f
      loadLoop fuel (if i = 3 then m.insertFull (t.getD 0 []) (atol (t.getD 1 [])) (atol (t.getD 2 [])) else m) f

/-- `load(file, 1)`. Each turn reads a line, so there are no more turns than characters. -/
def merge (m : MidInfo) : Option Text → MidInfo
  | none => m
  | some f => loadLoop f.length m f

/-- `load(file)`. -/
def load (file : Option Text) : MidInfo := { merge {} file with changed := false }

/-- The line that `save` writes for a state. -/
def stateLine (s : MessageState) : Text :=
  cstr s.messageid ++ ' ' :: printLong s.dateAdded ++ ' ' :: printLong s.dateRemoved ++ ['\n']

def saveText (m : MidInfo) : Text := (m.states.filter (·.dateRemoved ≠ timeTDead)).flatMap stateLine

/-- `save`: what is in memory and in the file then. -/
def save (m : MidInfo) (file : Option Text) : MidInfo × Option Text :=
  if m.changed then (m.merge file, some (m.merge file).saveText) else (m, file)

/-- An operation on a `c_mid_info`, with what `time(NULL)` gives. -/
inductive MidOp where
  | insert (mid : Text) (now : Int64)
  | remove (mid : Text)
  | setDelete (mid : Text) (now : Int64)
  | doDeleteFun (relMid : MidInfo) (curtime : Int64)
deriving DecidableEq

def apply (m : MidInfo) : MidOp → MidInfo
  | .insert mid now => m.insert mid now
  | .remove mid => m.remove mid
  | .setDelete mid now => m.setDelete mid now
  | .doDeleteFun relMid curtime => m.doDeleteFun relMid curtime

def run (m : MidInfo) (ops : List MidOp) : MidInfo := ops.foldl apply m

end MidInfo

/-! ### Processes that share the file -/

/-- Where a process is: before its `load`, between it and its `save`, or behind the `save`. -/
inductive MidPhase where
  | start
  | working (m : MidInfo)
  | done
deriving DecidableEq

structure MidShared (P : Type) where
  file : Option Text
  procs : P → MidPhase

/-- What a process does. -/
inductive MidEvent (P : Type) where
  | load (p : P)
  | insert (p : P) (mid : Text) (now : Int64)
  | remove (p : P) (mid : Text)
  | save (p : P)
deriving DecidableEq

namespace MidShared
variable {P : Type} [DecidableEq P]

def step (s : MidShared P) : MidEvent P → Option (MidShared P)
  | .load p =>
    match s.procs p with
    | .start => some { s with procs := Function.update s.procs p (.working (MidInfo.load s.file)) }
    | _ => none
  | .insert p mid now =>
    match s.procs p with
    | .working m => some { s with procs := Function.update s.procs p (.working (m.insert mid now)) }
    | _ => none
  | .remove p mid =>
    match s.procs p with
    | .working m => some { s with procs := Function.update s.procs p (.working (m.remove mid)) }
    | _ => none
  | .save p =>
    match s.procs p with
    | .working m => some ⟨(m.save s.file).2, Function.update s.procs p .done⟩
    | _ => none

def run (s : MidShared P) : List (MidEvent P) → Option (MidShared P)
  | [] => some s
  | e :: es => (s.step e).bind (·.run es)

/-- Before any process has started. -/
def init (file : Option Text) : MidShared P := ⟨file, fun _ => .start⟩

end MidShared
end Nget

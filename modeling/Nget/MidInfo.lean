import Nget.NntpFile

/-! The message-ids that are recorded as retrieved: `c_mid_info` for one group, `meta_mid_info` for the
    groups in use (`cache.h`, `cache.cc`). Where the source asks for the time, the time is an argument. -/

namespace Nget

def timeTMax : Int64 := 0x7FFFFFFF
def timeTMax1 : Int64 := timeTMax - 1
def timeTDead : Int64 := timeTMax

/-- `MID_INFO_MIN_KEEP`. -/
def midInfoMinKeep : Int64 := 14 * 24 * 60 * 60

/-- `MID_INFO_MIN_KEEP_DEL`. -/
def midInfoMinKeepDel : Int64 := 7 * 24 * 60 * 60

/-- `c_message_state`. -/
structure MessageState where
  messageid : Text
  dateAdded : Int64
  dateRemoved : Int64
deriving DecidableEq

/-- `c_mid_info`. The keys of the source's map are the message-ids of its states. -/
structure MidInfo where
  changed : Bool := false
  states : List MessageState := []
deriving DecidableEq

namespace MidInfo

def check (m : MidInfo) (mid : Text) : Bool := m.states.any (·.messageid = mid)

def insert (m : MidInfo) (mid : Text) (now : Int64) : MidInfo :=
  if m.check mid then m else ⟨true, m.states ++ [⟨mid, now, timeTMax1⟩]⟩

def remove (m : MidInfo) (mid : Text) : MidInfo :=
  if m.check mid then
    ⟨true, m.states.map fun s => if s.messageid = mid then { s with dateRemoved := timeTDead } else s⟩
  else m

def setDelete (m : MidInfo) (mid : Text) (now : Int64) : MidInfo :=
  { m with states := m.states.map fun s => if s.messageid = mid then { s with dateRemoved := now } else s }

theorem check_insert {m : MidInfo} {mid mid' : Text} {now : Int64} :
    (m.insert mid now).check mid' = (m.check mid' || mid = mid') := by
  unfold insert
  split
  · next h =>
    by_cases heq : mid = mid'
    · simp [← heq, h]
    · simp [heq]
  · simp [check]

/-- A state that `do_delete_fun` marks as not to be saved. -/
def expired (s : MessageState) (curtime : Int64) : Bool :=
  s.dateRemoved = timeTMax1 && s.dateAdded + midInfoMinKeep < curtime ||
    s.dateAdded + midInfoMinKeep < curtime && s.dateRemoved + midInfoMinKeepDel < curtime

def doDeleteFun (m relMid : MidInfo) (curtime : Int64) : MidInfo :=
  let dead := fun s => !relMid.check s.messageid && expired s curtime
  ⟨m.changed || m.states.any dead, m.states.map fun s => if dead s then { s with dateRemoved := timeTDead } else s⟩

end MidInfo

/-- `meta_mid_info`: the `c_mid_info` of each group, by the group's name. -/
structure MetaMidInfo where
  midinfos : List (Text × MidInfo) := []
deriving DecidableEq

namespace MetaMidInfo

def check (m : MetaMidInfo) (mid : Text) : Bool := m.midinfos.any (·.2.check mid)

/-- The `c_mid_info` of each group changed by `f`. -/
def mapAll (m : MetaMidInfo) (f : MidInfo → MidInfo) : MetaMidInfo := ⟨m.midinfos.map fun g => (g.1, f g.2)⟩

/-- Inserts the message-id of the file's first part for the group of each of that part's articles. -/
def insert (m : MetaMidInfo) (f : NntpFile) (now : Int64) : MetaMidInfo :=
  match f.parts.head? with
  | some p =>
    p.articles.foldl (fun m sa => ⟨m.midinfos.map fun g => if g.1 = sa.group then (g.1, g.2.insert f.bamid now) else g⟩) m
  | none => m

def remove (m : MetaMidInfo) (mid : Text) : MetaMidInfo := m.mapAll (·.remove mid)

def setDelete (m : MetaMidInfo) (mid : Text) (now : Int64) : MetaMidInfo := m.mapAll (·.setDelete mid now)

def doDeleteFun (m : MetaMidInfo) (relMid : MidInfo) (curtime : Int64) : MetaMidInfo :=
  m.mapAll (·.doDeleteFun relMid curtime)

end MetaMidInfo
end Nget

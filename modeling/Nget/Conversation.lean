import Nget.Article
import Nget.Dogroup
import Nget.Grouplist
import Nget.Lib.Outcome

/-! The conversation with a news server (`prot_nntp.cc`): the commands that are sent and the lines that come back, the
    authorization, and the update of the list of newsgroups. The server is a machine that answers each command. -/

namespace Nget
open CString

/-- A `baseCommEx`, or the exception of a `substr` out of range, which nothing on the way catches. -/
inductive ProtEx
  | comm (ex : CommEx)
  | outOfRange
deriving DecidableEq

/-- `c_prot_nntp` while it holds a connection: the server behind it, the lines that came and are not read, the line that
    was read last, and the commands that were sent. -/
structure ProtNntp (S : Type) where
  server : S
  incoming : List Text := []
  cbuf : Text := []
  sent : List Text := []
  freshconnect : Bool := true
  serverOk : Bool := false
  closed : Bool := false
  glist : Grouplist := {}

/-- The connection's server: its configuration, what it answers to a command, and the date and time of this side in
    the form `%Y%m%d%H%M%S`. -/
structure NewsServer (S : Type) where
  serverid : UInt64
  user : Text := []
  pass : Text := []
  answer : Text → S → List Text × S
  localDate : S → Text

abbrev ProtM (S : Type) := EStateM ProtEx (ProtNntp S)

section
variable {S : Type} (srv : NewsServer S)

namespace ProtNntp

def throwComm {α : Type} (fatal : Bool) (text : Text) : ProtM S α := throw (.comm ⟨fatal, text⟩)

def putline (cmd : Text) : ProtM S Unit := modify fun p =>
  let (lines, server) := srv.answer cmd p.server
  { p with server, incoming := p.incoming ++ lines, sent := p.sent ++ [cmd] }

/-- `getline`: the line is in `cbuf`. -/
def getline : ProtM S Unit := fun p =>
  match p.incoming with
  | [] => .error (.comm ⟨connectionClosed.fatal, connectionClosed.text⟩) p
  | line :: incoming => .ok () { p with incoming, cbuf := cstr line }

def getreply : ProtM S Int32 := do
  getline
  return atoi (← get).cbuf

/-- `chkreply`, which closes the connection on a 400. -/
def chkreply (reply : Int32) : ProtM S Unit := do
  let cbuf := (← get).cbuf
  if reply = 400 then
    modify fun p => { p with closed := true }
    throwComm false ("server says byebye: ".toList ++ cbuf)
  else if reply / 100 ≠ 2 then
    throwComm true ("bad reply ".toList ++ printInt reply ++ ": ".toList ++ cbuf)

/-- `nntp_auth`. -/
def nntpAuth : ProtM S Unit :=
  if srv.user.isEmpty then throwComm true "nntp_doauth: no authorization info known".toList
  else do
    putline srv ("AUTHINFO USER ".toList ++ srv.user)
    let i ← getreply
    if i = 350 || i = 381 then
      if srv.pass.isEmpty then throwComm true "nntp_doauth: no password known".toList
      else do
        putline srv ("AUTHINFO PASS ".toList ++ srv.pass)
        let i ← getreply
        chkreply i
    else chkreply i

/-- `stdputline`: the command, once more after an authorization if the reply asks for one. -/
def stdputline (cmd : Text) : ProtM S Int32 := do
  putline srv cmd
  let i ← getreply
  if i = 450 || i = 480 then
    nntpAuth srv
    putline srv cmd
    getreply
  else return i

/-- `nntp_doopen`. -/
def nntpDoopen : ProtM S Unit := do
  if (← get).freshconnect then
    let i ← getreply
    chkreply i
    putline srv "MODE READER".toList
    getline
    modify fun p => { p with freshconnect := false }

/-! ### The list of newsgroups -/

/-- The lines up to the dot, each of which is done something with; what is left to read, unless the connection ends
    before. -/
def linesLoop (act : Text → Grouplist → Grouplist) : List Text → Text → Grouplist → Option (List Text) × Text × Grouplist
  | [], cbuf, glist => (none, cbuf, glist)
  | line :: lines, _, glist =>
    let cbuf := cstr line
    if isEndMark cbuf then (some lines, cbuf, glist) else linesLoop act lines cbuf (act cbuf glist)

def getlines (act : Text → Grouplist → Grouplist) : ProtM S Unit := fun p =>
  match linesLoop act p.incoming p.cbuf p.glist with
  | (some incoming, cbuf, glist) => .ok () { p with incoming, cbuf, glist }
  | (none, cbuf, glist) => .error (.comm ⟨connectionClosed.fatal, connectionClosed.text⟩) { p with incoming := [], cbuf, glist }

def isBlank (c : Char) : Bool := c = ' ' || c = '\t'

/-- What `nntp_dogetgrouplist` does with a line. -/
def grouplistLine (serverid : UInt64) (cbuf : Text) (glist : Grouplist) : Grouplist :=
  glist.addgroup serverid (cbuf.takeWhile fun c => !isBlank c)

def nntpDogetgrouplist : ProtM S Unit := getlines (grouplistLine srv.serverid)

/-- `NEWGROUPS` with a date of at least six characters. -/
def newgroupsCommand (date : Text) : Text :=
  let dsepn := date.length - 6
  "NEWGROUPS ".toList ++ date.take dsepn ++ ' ' :: date.drop dsepn ++ " GMT".toList

/-- The date that the server's information has, which is made if there is none. -/
def servinfoDate (serverid : UInt64) (glist : Grouplist) : Text :=
  match glist.serverInfo.find? serverid with
  | some e => e.2.date
  | none => []

/-- The command of `nntp_dogrouplist` that asks for the groups. -/
def askGrouplist (date : Text) : ProtM S Unit :=
  if !date.isEmpty then
    if date.length < 6 then throw .outOfRange
    else do
      let r ← stdputline srv (newgroupsCommand date)
      chkreply r
  else do
    let r ← stdputline srv "LIST".toList
    chkreply r

/-- `nntp_dogrouplist`. -/
def nntpDogrouplist : ProtM S Unit := do
  modify fun p => { p with glist := p.glist.getserverinfo srv.serverid }
  let date := servinfoDate srv.serverid (← get).glist
  let r ← stdputline srv "DATE".toList
  let p ← get
  let newdate := if r = 111 then p.cbuf.drop 4 else srv.localDate p.server
  askGrouplist srv date
  nntpDogetgrouplist srv
  modify fun p => { p with glist := p.glist.setDate srv.serverid newdate }

/-- `nntp_dogrouplist(wildmat)`. -/
def nntpDogrouplistWildmat (wildmat : Text) : ProtM S Unit := do
  let r ← stdputline srv ("LIST ACTIVE ".toList ++ wildmat)
  chkreply r
  nntpDogetgrouplist srv

/-- What `nntp_dogroupdescriptions` does with a line. -/
def groupdescLine (serverid : UInt64) (cbuf : Text) (glist : Grouplist) : Grouplist :=
  glist.addgroupdesc serverid (cbuf.takeWhile fun c => !isBlank c) ((cbuf.dropWhile fun c => !isBlank c).dropWhile isBlank)

def groupdescriptionsCommand : Option Text → Text
  | some wildmat => "LIST NEWSGROUPS ".toList ++ wildmat
  | none => "LIST NEWSGROUPS".toList

/-- `nntp_dogroupdescriptions`; a server that does not know the command is left alone. -/
def nntpDogroupdescriptions (wildmat : Option Text) : ProtM S Unit := do
  let r ← stdputline srv (groupdescriptionsCommand wildmat)
  if r / 100 = 2 then getlines (groupdescLine srv.serverid)

/-- What `nntp_grouplist` does with a connection to a server. -/
def grouplistAttempt : ProtM S Unit := do
  nntpDoopen srv
  nntpDogrouplist srv
  nntpDogroupdescriptions srv none
  modify fun p => { p with serverOk := true }

end ProtNntp
end
end Nget

import Nget.ArgParser
import Nget.Etree
import Nget.Galias
import Nget.Getfiles
import Nget.Lib.Outcome
import Nget.Path
import Nget.Regex2Wildmat
import Nget.TextHandler

/-! The command line (`do_args` in `nget.cc`): options set what later options work with, retrieve requests are queued, and
    the queue is handed on before anything that changes the groups, the server or the mode. What popt and getopt make of the
    words, and what the commands do, is the parameter `ArgsOutside`, over a state `W` of its own. -/

namespace Nget
open CString

/-! ### Options -/

def badHost : UInt32 := 1
def badPath : UInt32 := 2
def badTemppath : UInt32 := 4

def makedirsYes : Int32 := -1
def makedirsAsk : Int32 := -2

def intMax : Int := 2 ^ 31 - 1
def ulongMax : Int := 2 ^ 64 - 1

inductive ShowMultiserver
  | no
  | long
  | short
deriving DecidableEq

inductive CmdMode
  | retrieve
  | grouplist
  | nocacheRetrieve
  | nocacheGrouplist
deriving DecidableEq

/-- The other fields of `nget_options`; a group is its place in the list of all that were made, a host its alias. -/
structure CmdOptions extends NgetOptions where
  maxretry : Int32 := 20
  retrydelay : Int32 := 1
  linelimit : UInt64 := 0
  maxlinelimit : UInt64 := UInt64.ofInt ulongMax
  badskip : UInt32 := 0
  testMulti : ShowMultiserver := .no
  makedirs : Int32 := 0
  cmdmode : CmdMode := .retrieve
  groups : List (Option Nat) := []
  host : Option Text := none
  bindaddr : Text := []
  path : Text
  startpath : Text
  temppath : Text
  dupepaths : List Text := []
  texthandling : TextHandling := .files
  saveTextForBinaries : Bool := false
  mboxfname : Text := "nget.mbox".toList
  fullxover : Int32 := -1

/-- What the option parser gives for a word or two of the line: the case of the switch, and its argument. -/
inductive ArgsOpt
  | testmode
  | testMulti (arg : Text)
  | textHandling (arg : Text)
  | saveTextForBinaries (arg : Text)
  | mark
  | unmark
  | expretrieve (arg : Text)
  | retrieve (arg : Text)
  | autopar
  | noAutopar
  | incomplete
  | complete
  | keep
  | noDecode
  | decode
  | case
  | nocase
  | dupecheck (arg : Text)
  | noDupecheck
  | noconnect
  | quiet
  | delay (arg : Text)
  | timeout (arg : Text)
  | tries (arg : Text)
  | maxlines (arg : Text)
  | limit (arg : Text)
  | writelite (arg : Text)
  | makedirs (arg : Text)
  | temppath (arg : Text)
  | path (arg : Text)
  | dupepath (arg : Text)
  | fullxover (arg : Text)
  | flushserver (arg : Text)
  /-- An error of the option parser. -/
  | bad
  | help
  /-- A word that is no option. -/
  | arg (arg : Text)
  | list (arg : Text)
  | available
  | quickavailable
  | xavailable
  | group (arg : Text)
  | quickgroup (arg : Text)
  | xgroup (arg : Text)
  | host (arg : Text)
  | bindaddr (arg : Text)
  | other
deriving DecidableEq

/-! ### Requests and commands -/

/-- `c_xpat`. -/
structure Xpat where
  field : Text
  wildmat : Text
deriving DecidableEq

/-- `c_nntp_getinfo`, with the files of `flist`. -/
structure ArgsGetinfo (ρ : Type) where
  path : Text
  temppath : Text
  pred : ρ
  flags : UInt32
  flist : List (Text × UInt64)

/-- `c_grouplist_getinfo`. -/
structure GrouplistGetinfo (γ : Type) where
  pred : γ
  flags : UInt32

/-- The calls that `do_args` makes of `c_prot_nntp` and its caches. -/
inductive ArgsCall (ρ γ : Type)
  | retrieve (groups : List (Option Nat)) (getinfos : List (ArgsGetinfo ρ)) (options : CmdOptions)
  | retrieveXpat (groups : List (Option Nat)) (getinfos : List (ArgsGetinfo ρ)) (patinfos : List Xpat) (options : CmdOptions)
  | grouplistSearch (getinfos : List (GrouplistGetinfo γ)) (options : CmdOptions)
  | grouplistSearchXpat (getinfos : List (GrouplistGetinfo γ)) (patinfos : List Xpat) (options : CmdOptions)
  | grouplist (update : Bool) (options : CmdOptions)
  | glistFlushserver (server : Text)
  | group (group : Option Nat) (getheaders : Bool) (options : CmdOptions)
  | flushlow (server : Text)
  | openHost (host : Option Text)

/-- What happens in a run, in order. The requests are noted here as they are queued, with the groups of that moment. -/
inductive ArgsEvent (ρ γ : Type)
  | asked (groups : List (Option Nat)) (info : ArgsGetinfo ρ) (pat : Option Xpat)
  | askedGroups (info : GrouplistGetinfo γ) (pat : Option Xpat)
  | called (call : ArgsCall ρ γ)
  /-- "testmode required for grouplist". -/
  | refused (infos : List (GrouplistGetinfo γ))
  /-- The help or an invalid argument ends the line. -/
  | gaveUp

/-- What a run is left by: the exception of `fatal_user_errors`, another one, or list files that read one another without end. -/
inductive ArgsStop
  | fatalUser
  | thrown (text : Text)
  | endless
deriving DecidableEq

/-- What `make_pred` and its like throw. -/
inductive PredEx
  | regex (text : Text)
  | user (text : Text)

/-- What opening a file throws. -/
inductive FileEx
  | noent (text : Text)
  | other (text : Text)

/-- A list file that is open: its lines up to its end or to a read that throws, and what closing it throws. -/
structure ListFile where
  lines : List Text
  failure : Option Text := none
  closing : Option Text := none

structure ArgsOutside (ρ γ W : Type) where
  fatalUserErrors : Bool
  getserver : Text → Option Text
  getgroups : Text → W → Except Text (List (Option Nat)) × W
  /-- `make_nntpfile_pred` of words, and of a text that is first made into words. -/
  makeNntpfilePred : List Text → UInt32 → Except PredEx ρ
  makeGrouplistPred : List Text → UInt32 → Except PredEx γ
  /-- `goodgetcwd`. -/
  getcwd : W → Except Text Text × W
  chdir : Text → W → Bool × W
  /-- `direxists`, which goes into the directory and back. -/
  direxists : Text → W → Except Text Bool × W
  /-- The directory is changed to; it may be made, and the current one asked for. -/
  maybeMkdirChdir : Text → Int32 → W → Except Text Bool × W
  /-- `flist.addfrompath`. -/
  readDir : Text → W → Except Text (List (Text × UInt64))
  /-- A list file, under its name or among the lists. -/
  openList : Text → W → Except FileEx ListFile
  popt : List Text → List ArgsOpt
  perform : ArgsCall ρ γ → W → Except Text Unit × W

/-- The variables of `do_args`, the globals that it changes, the counts of the status, and what happened. -/
structure ArgsState (ρ γ W : Type) where
  options : CmdOptions
  getinfos : List (ArgsGetinfo ρ) := []
  patinfos : List Xpat := []
  grouplistgetinfos : List (GrouplistGetinfo γ) := []
  quiet : Nat := 0
  sockTimeout : Int32 := 180
  userErrors : Nat := 0
  pathErrors : Nat := 0
  history : List (ArgsEvent ρ γ) := []
  world : W

abbrev ArgsM (ρ γ W α : Type) := EStateM ArgsStop (ArgsState ρ γ W) α

/-! ### Numbers -/

/-- `parsestr` with a range: an optional sign and digits, and nothing after them. -/
def parsestr (isSigned : Bool) (lo hi : Int) (val : Text) : Option Int :=
  if val.isEmpty || !isSigned && '-' ∈ val then none
  else
    let n := scan val
    let v : Int := if n.negative then -n.magnitude else n.magnitude
    if !n.rest.isEmpty || v < lo || hi < v then none else some v

/-! ### The cases -/

namespace CmdOptions

def setFlags (options : CmdOptions) (flags : UInt32) : CmdOptions := { options with gflags := options.gflags ||| flags }

def clearFlags (options : CmdOptions) (flags : UInt32) : CmdOptions := { options with gflags := options.gflags &&& ~~~flags }

/-- One of the bits of `badskip` is set. -/
def skips (options : CmdOptions) (bad : UInt32) : Bool := options.badskip &&& bad ≠ 0

/-- A flag of `parse_dupe_flags`, unless it is unknown. -/
def dupeFlag (options : CmdOptions) (opt : Char) : Option CmdOptions :=
  if opt = 'i' then some (options.clearFlags getfilesNodupeidcheck)
  else if opt = 'I' then some (options.setFlags getfilesNodupeidcheck)
  else if opt = 'f' then some (options.clearFlags getfilesNodupefilecheck)
  else if opt = 'F' then some (options.setFlags getfilesNodupefilecheck)
  else if opt = 'm' then some (options.setFlags getfilesDupefilemark)
  else if opt = 'M' then some (options.clearFlags getfilesDupefilemark)
  else none

def setSaveTextForBinaries (options : CmdOptions) (s : Text) : Option CmdOptions :=
  if strcaseeq s "yes".toList then some { options with saveTextForBinaries := true }
  else if strcaseeq s "no".toList then some { options with saveTextForBinaries := false }
  else none

def setTextHandling (options : CmdOptions) (s : Text) : Option CmdOptions :=
  if strcaseeq s "files".toList then some { options with texthandling := .files }
  else if strcaseeq s "mbox".toList then some { options with texthandling := .mbox }
  else if strcaseeq (s.take 5) "mbox:".toList then some { options with texthandling := .mbox, mboxfname := s.drop 5 }
  else if strcaseeq s "ignore".toList then some { options with texthandling := .ignore }
  else none

def setTestMulti (options : CmdOptions) (s : Text) : Option CmdOptions :=
  if strcaseeq s "short".toList then some { options with testMulti := .short }
  else if strcaseeq s "long".toList then some { options with testMulti := .long }
  else if strcaseeq s "no".toList then some { options with testMulti := .no }
  else none

def setMakedirs (options : CmdOptions) (s : Text) : Option CmdOptions :=
  if strcaseeq s "yes".toList then some { options with makedirs := makedirsYes }
  else if strcaseeq s "ask".toList then some { options with makedirs := makedirsAsk }
  else if strcaseeq s "no".toList then some { options with makedirs := 0 }
  else if s.isEmpty || !(strtol s).2.isEmpty || atoi s < 0 then none
  else some { options with makedirs := atoi s }

/-- What `-t` sets. -/
def setTries (options : CmdOptions) (n : Int32) : CmdOptions :=
  { options with maxretry := if n ≤ 0 then Int32.ofInt (intMax - 1) else n }

end CmdOptions

section
variable {ρ γ W : Type} (out : ArgsOutside ρ γ W)

namespace DoArgs

def setOptions (f : CmdOptions → CmdOptions) : ArgsM ρ γ W Unit := modify fun st => { st with options := f st.options }

def setWorld (world : W) : ArgsM ρ γ W Unit := modify fun st => { st with world }

def note (event : ArgsEvent ρ γ) : ArgsM ρ γ W Unit := modify fun st => { st with history := st.history ++ [event] }

/-- `set_user_error_status_and_do_fatal_user_error`. -/
def userError : ArgsM ρ γ W Unit := do
  modify fun st => { st with userErrors := st.userErrors + 1 }
  if out.fatalUserErrors then throw .fatalUser

/-- `set_path_error_status_and_do_fatal_user_error`. -/
def pathError : ArgsM ρ γ W Unit := do
  modify fun st => { st with pathErrors := st.pathErrors + 1 }
  if out.fatalUserErrors then throw .fatalUser

/-- What is done outside, which may throw. -/
def outside {α : Type} (f : W → Except Text α × W) : ArgsM ρ γ W α := do
  match f (← get).world with
  | (.ok a, world) => do
    setWorld world
    return a
  | (.error text, world) => do
    setWorld world
    throw (.thrown text)

def call (c : ArgsCall ρ γ) : ArgsM ρ γ W Unit := do
  note (.called c)
  outside (out.perform c)

/-- An option whose argument may be invalid. -/
def setOrUserError (set : CmdOptions → Option CmdOptions) : ArgsM ρ γ W Unit := do
  match set (← get).options with
  | some options => setOptions fun _ => options
  | none => userError out

/-- `parse_dupe_flags`. -/
def parseDupeFlags : Text → ArgsM ρ γ W Unit
  | [] => pure ()
  | opt :: opts => do
    setOrUserError out (·.dupeFlag opt)
    parseDupeFlags opts

/-- An option whose argument is a number. -/
def number (isSigned : Bool) (lo hi : Int) (arg : Text) (set : Int → CmdOptions → CmdOptions) : ArgsM ρ γ W Unit :=
  match parsestr isSigned lo hi arg with
  | some v => setOptions (set v)
  | none => userError out

def doTimeout (arg : Text) : ArgsM ρ γ W Unit :=
  match parsestr true 1 intMax arg with
  | some v => modify fun st => { st with sockTimeout := Int32.ofInt v }
  | none => userError out

/-- `-L`. -/
def doMaxlines (arg : Text) : ArgsM ρ γ W Unit :=
  if arg = "-1".toList then setOptions fun o => { o with maxlinelimit := UInt64.ofInt ulongMax }
  else number out false 0 ulongMax arg fun v o => { o with maxlinelimit := UInt64.ofInt v }

def doDupepath (arg : Text) : ArgsM ρ γ W Unit := do
  if ← outside (out.direxists arg) then setOptions fun o => { o with dupepaths := o.dupepaths ++ [arg] } else pathError out

/-- `-U`. -/
def doUnmark : ArgsM ρ γ W Unit := do
  setOptions fun o => (o.setFlags getfilesUnmark).clearFlags getfilesMark
  parseDupeFlags out ['I']

/-- The way back after `-p`, `-P` and a list file. -/
def chdirStartpath : ArgsM ρ γ W Unit := do
  let st ← get
  let (changed, world) := out.chdir st.options.startpath st.world
  setWorld world
  if !changed then
    modify fun st => { st with pathErrors := st.pathErrors + 1 }
    throw (.thrown ("could not change to startpath: ".toList ++ st.options.startpath))

/-- `get_temppath`. -/
def getTemppath : ArgsM ρ γ W Unit := do
  let cwd ← outside out.getcwd
  setOptions fun o => { o with temppath := pathAppend cwd [] }

/-- `-P`. -/
def doTemppath (arg : Text) : ArgsM ρ γ W Unit := do
  if ← outside (out.maybeMkdirChdir arg (← get).options.makedirs) then
    getTemppath out
    setOptions fun o => { o with badskip := o.badskip &&& ~~~badTemppath }
    chdirStartpath out
  else
    pathError out
    setOptions fun o => { o with badskip := o.badskip ||| badTemppath }

/-- `-p`. -/
def doPath (arg : Text) : ArgsM ρ γ W Unit := do
  if ← outside (out.maybeMkdirChdir arg (← get).options.makedirs) then
    setOptions fun o => { o with dupepaths := [] }
    let cwd ← outside out.getcwd
    setOptions fun o => { o with path := cwd }
    getTemppath out
    setOptions fun o => { o with badskip := o.badskip &&& ~~~(badTemppath ||| badPath) }
    chdirStartpath out
  else
    pathError out
    setOptions fun o => { o with badskip := o.badskip ||| (badTemppath ||| badPath) }

/-- The files that `c_nntp_getinfo` checks for duplicates. -/
def flistOf (options : CmdOptions) (world : W) : Except Text (List (Text × UInt64)) :=
  if options.has getfilesNodupefilecheck then .ok []
  else do return (← (options.dupepaths ++ [options.path]).mapM fun dir => out.readDir dir world).flatten

/-- A request for files is queued; the constructor may throw. -/
def askFiles (pred : ρ) (pat : Option Xpat) : ArgsM ρ γ W Unit := do
  let st ← get
  match flistOf out st.options st.world with
  | .error text => throw (.thrown text)
  | .ok flist =>
    let info : ArgsGetinfo ρ := ⟨st.options.path, st.options.temppath, pred, st.options.gflags, flist⟩
    modify fun st => { st with getinfos := st.getinfos ++ [info] }
    note (.asked st.options.groups info pat)

/-- A request for newsgroups is queued. -/
def askGroups (pred : γ) (pat : Option Xpat) : ArgsM ρ γ W Unit := do
  let info : GrouplistGetinfo γ := ⟨pred, (← get).options.gflags⟩
  modify fun st => { st with grouplistgetinfos := st.grouplistgetinfos ++ [info] }
  note (.askedGroups info pat)

/-- `-R`. -/
def doExpretrieve (arg : Text) : ArgsM ρ γ W Unit := do
  let options := (← get).options
  let words := parseargs [] arg false
  if options.cmdmode = .nocacheGrouplist then userError out
  else if options.cmdmode = .grouplist then
    match words.1, out.makeGrouplistPred words.2 options.gflags with
    | .ok (), .ok pred => askGroups pred none
    | _, _ => userError out
  else if options.badskip ≠ 0 then pure ()
  else if options.cmdmode = .nocacheRetrieve then userError out
  else if options.groups.isEmpty then userError out
  else
    match words.1, out.makeNntpfilePred words.2 options.gflags with
    | .ok (), .ok pred => askFiles out pred none
    | _, _ => userError out

/-- The words of the expression that `-r` stands for, when it looks for newsgroups. -/
def groupWords (arg : Text) : List Text :=
  ["group".toList, arg, "=~".toList, "desc".toList, arg, "=~".toList, "||".toList]

/-- The words of the expression that `-r` stands for, with the tests of the line count in front. -/
def fileWords (options : CmdOptions) (arg : Text) : List Text :=
  let eParts := ["subject".toList, arg, "=~".toList]
  let eParts :=
    if 0 < options.linelimit then
      ["lines".toList, printUlong options.linelimit, ">=".toList] ++ eParts ++ ["&&".toList]
    else eParts
  if options.maxlinelimit < UInt64.ofInt ulongMax then
    ["lines".toList, printUlong options.maxlinelimit, "<=".toList] ++ eParts ++ ["&&".toList]
  else eParts

/-- The pattern of a request in a mode without cache, which is queued before the expression is made. -/
def askPattern (nocache : Bool) (field : Text) (arg : Text) (gflags : UInt32) : ArgsM ρ γ W (Except Unit (Option Xpat)) :=
  if nocache then
    match regex2wildmat arg (gflags &&& getfilesCasesensitive = 0) with
    | .error _ => return .error ()
    | .ok wildmat => do
      modify fun st => { st with patinfos := st.patinfos ++ [⟨field, wildmat⟩] }
      return .ok (some ⟨field, wildmat⟩)
  else return .ok none

/-- `-r`. -/
def doRetrieve (arg : Text) : ArgsM ρ γ W Unit := do
  let options := (← get).options
  if options.cmdmode = .grouplist || options.cmdmode = .nocacheGrouplist then
    match ← askPattern (options.cmdmode = .nocacheGrouplist) [] arg options.gflags with
    | .error () => userError out
    | .ok pat =>
      match out.makeGrouplistPred (groupWords arg) options.gflags with
      | .ok pred => askGroups pred pat
      | .error (.regex _) => userError out
      | .error (.user text) => throw (.thrown text)
  else if options.badskip ≠ 0 then pure ()
  else if options.groups.isEmpty then userError out
  else
    match ← askPattern (options.cmdmode = .nocacheRetrieve) "Subject".toList arg options.gflags with
    | .error () => userError out
    | .ok pat =>
      match out.makeNntpfilePred (fileWords options arg) options.gflags with
      | .ok pred => askFiles out pred pat
      | .error (.regex _) => userError out
      | .error (.user text) => throw (.thrown text)

/-- The loop of `-F` over the groups. -/
def flushGroups (server : Text) : List (Option Nat) → ArgsM ρ γ W Unit
  | [] => pure ()
  | gi :: gis => do
    call out (.group gi false (← get).options)
    call out (.flushlow server)
    flushGroups server gis

/-- `-F`. -/
def doFlushserver (arg : Text) : ArgsM ρ γ W Unit := do
  let options := (← get).options
  match out.getserver arg with
  | none => userError out
  | some server =>
    if options.cmdmode = .nocacheRetrieve || options.cmdmode = .nocacheGrouplist then userError out
    else if options.cmdmode = .grouplist then
      call out (.grouplist false options)
      call out (.glistFlushserver server)
    else if options.groups.isEmpty then userError out
    else flushGroups out server options.groups

/-- The cases of the switch that leave the queue alone or add to it; none for the others. -/
def doSetting : ArgsOpt → Option (ArgsM ρ γ W Unit)
  | .testmode => some (setOptions fun o => o.setFlags getfilesTestmode)
  | .testMulti arg => some (setOrUserError out (·.setTestMulti arg))
  | .textHandling arg => some (setOrUserError out (·.setTextHandling arg))
  | .saveTextForBinaries arg => some (setOrUserError out (·.setSaveTextForBinaries arg))
  | .mark => some (setOptions fun o => (o.setFlags getfilesMark).clearFlags getfilesUnmark)
  | .unmark => some (doUnmark out)
  | .expretrieve arg => some (doExpretrieve out arg)
  | .retrieve arg => some (doRetrieve out arg)
  | .autopar => some (setOptions fun o => o.clearFlags getfilesNoautopar)
  | .noAutopar => some (setOptions fun o => o.setFlags getfilesNoautopar)
  | .incomplete => some (setOptions fun o => o.setFlags getfilesGetincomplete)
  | .complete => some (setOptions fun o => o.clearFlags getfilesGetincomplete)
  | .keep => some (setOptions fun o => o.setFlags getfilesKeeptemp)
  | .noDecode => some (setOptions fun o => o.setFlags getfilesNodecode)
  | .decode => some (setOptions fun o => o.clearFlags (getfilesNodecode ||| getfilesKeeptemp))
  | .case => some (setOptions fun o => o.setFlags getfilesCasesensitive)
  | .nocase => some (setOptions fun o => o.clearFlags getfilesCasesensitive)
  | .dupecheck arg => some (parseDupeFlags out (cstr arg))
  | .noDupecheck => some (parseDupeFlags out "FIM".toList)
  | .noconnect => some (setOptions fun o => o.setFlags getfilesNoconnect)
  | .quiet => some (modify fun st => { st with quiet := st.quiet + 1 })
  | .delay arg => some (number out true 0 intMax arg fun v o => { o with retrydelay := Int32.ofInt v })
  | .timeout arg => some (doTimeout out arg)
  | .tries arg => some (number out true (-1) intMax arg fun v o => o.setTries (Int32.ofInt v))
  | .maxlines arg => some (doMaxlines out arg)
  | .limit arg => some (number out false 0 ulongMax arg fun v o => { o with linelimit := UInt64.ofInt v })
  | .writelite arg => some (setOptions fun o => { o with writelite := arg })
  | .makedirs arg => some (setOrUserError out (·.setMakedirs arg))
  | .temppath arg => some (doTemppath out arg)
  | .path arg => some (doPath out arg)
  | .dupepath arg => some (doDupepath out arg)
  | .fullxover arg => some (number out true (-1) 2 arg fun v o => { o with fullxover := Int32.ofInt v })
  | .flushserver arg => some (doFlushserver out arg)
  | .bad => some (userError out)
  | _ => none

/-- The requests for newsgroups are handed on. -/
def handOnGroups : ArgsM ρ γ W Unit := do
  let st ← get
  if !st.grouplistgetinfos.isEmpty then
    if !st.options.has getfilesTestmode then
      note (.refused st.grouplistgetinfos)
      userError out
    else if !st.patinfos.isEmpty then call out (.grouplistSearchXpat st.grouplistgetinfos st.patinfos st.options)
    else call out (.grouplistSearch st.grouplistgetinfos st.options)
    modify fun st => { st with grouplistgetinfos := [], patinfos := [] }

/-- The requests for files are handed on. -/
def handOnFiles : ArgsM ρ γ W Unit := do
  let st ← get
  if !st.patinfos.isEmpty then
    call out (.retrieveXpat st.options.groups st.getinfos st.patinfos st.options)
    modify fun st => { st with getinfos := [], patinfos := [] }
  else if !st.getinfos.isEmpty then
    call out (.retrieve st.options.groups st.getinfos st.options)
    modify fun st => { st with getinfos := [] }

/-- What the default case of the switch does first. -/
def handOn : ArgsM ρ γ W Unit := do
  handOnGroups out
  handOnFiles out

/-- `getgroups(options.groups, loptarg)` in a mode. -/
def setGroups (mode : CmdMode) (arg : Text) : ArgsM ρ γ W Unit := do
  setOptions fun o => { o with cmdmode := mode }
  let groups ← outside (out.getgroups arg)
  setOptions fun o => { o with groups }

/-- The loop of `-g` over the groups. -/
def updateGroups : List (Option Nat) → ArgsM ρ γ W Unit
  | [] => pure ()
  | gi :: gis => do
    call out (.group gi true (← get).options)
    updateGroups gis

/-- `-h`. -/
def doHost (arg : Text) : ArgsM ρ γ W Unit := do
  if arg.isEmpty then setOptions fun o => { o with host := none, badskip := o.badskip &&& ~~~badHost }
  else
    match out.getserver arg with
    | none =>
      setOptions fun o => { o with host := none, badskip := o.badskip ||| badHost }
      userError out
    | some server => setOptions fun o => { o with host := some server, badskip := o.badskip &&& ~~~badHost }
  call out (.openHost (← get).options.host)

/-- `-a`, which is `-A` without a host. -/
def doAvailable : ArgsM ρ γ W Unit := do
  let skips := (← get).options.skips badHost
  setOptions fun o => { o with cmdmode := .grouplist }
  if !skips then call out (.grouplist true (← get).options)

/-- `-g`, which is `-G` without a host. -/
def doGroup (arg : Text) : ArgsM ρ γ W Unit := do
  let skips := (← get).options.skips badHost
  setGroups out .retrieve arg
  if !skips then updateGroups out (← get).options.groups

/-- The cases of the inner switch that go on with the line. -/
def doCommand : ArgsOpt → Option (ArgsM ρ γ W Unit)
  | .available => some (doAvailable out)
  | .quickavailable => some (setOptions fun o => { o with cmdmode := .grouplist })
  | .xavailable => some (setOptions fun o => { o with cmdmode := .nocacheGrouplist })
  | .group arg => some (doGroup out arg)
  | .quickgroup arg => some (setGroups out .retrieve arg)
  | .xgroup arg => some (setGroups out .nocacheRetrieve arg)
  | .host arg => some (doHost out arg)
  | .bindaddr arg => some (setOptions fun o => { o with bindaddr := arg })
  | _ => none

/-- The exception is thrown, if there is one. -/
def throwIf (failure : Option Text) : ArgsM ρ γ W Unit :=
  match failure with
  | some text => throw (.thrown text)
  | none => return

/-- The words of a list file, up to a line that cannot be parsed, whose first words stay. -/
def listWords (failure : Option Text) : List Text → List Text → ArgsM ρ γ W (List Text)
  | [], arglist => do
    throwIf failure
    return arglist
  | line :: lines, arglist =>
    match parseargs arglist line true with
    | (.ok (), arglist) => listWords failure lines arglist
    | (.error _, arglist) => do
      userError out
      return arglist

/-- `-@`, with what reads the options of the list file: it has a queue and a copy of the options of its own. -/
def doList (readOpts : List ArgsOpt → ArgsM ρ γ W Unit) (arg : Text) : ArgsM ρ γ W Unit := do
  match out.openList arg (← get).world with
  | .error (.noent _) => userError out
  | .error (.other text) => throw (.thrown text)
  | .ok file =>
    let arglist ← listWords out file.failure file.lines []
    throwIf file.closing
    if !arglist.isEmpty then
      let outer ← get
      modify fun st => { st with getinfos := [], patinfos := [], grouplistgetinfos := [] }
      readOpts (out.popt arglist)
      modify fun st => { st with
        options := outer.options
        getinfos := outer.getinfos
        patinfos := outer.patinfos
        grouplistgetinfos := outer.grouplistgetinfos }
      if outer.options.host.isSome then call out (.openHost outer.options.host)
      chdirStartpath out

/-- `do_args` without a list file: the options one by one, and what it returns. `list` does what `-@` asks for. -/
def doOpts (list : Text → ArgsM ρ γ W Unit) : List ArgsOpt → ArgsM ρ γ W Int32
  | [] => do
    handOn out
    return 0
  | opt :: opts =>
    match doSetting out opt with
    | some set => do
      set
      doOpts list opts
    | none =>
      match opt with
      | .help => do
        note .gaveUp
        return 1
      | .arg _ => do
        userError out
        note .gaveUp
        return 1
      | .list arg => do
        handOn out
        list arg
        doOpts list opts
      | opt => do
        handOn out
        match doCommand out opt with
        | some command => do
          command
          doOpts list opts
        | none => return 1

end DoArgs

/-- `do_args`, for list files that are read from list files so many levels deep at most. -/
def doArgs : Nat → List ArgsOpt → ArgsM ρ γ W Int32
  | 0, _ => throw .endless
  | fuel + 1, opts => DoArgs.doOpts out (DoArgs.doList out fun opts => do let _ ← doArgs fuel opts) opts

end
end Nget

import Nget.CacheFile
import Nget.Lib.SortedSet

/-! The list of newsgroups (`grouplist.h`, `grouplist.cc`). A map with `const char *` keys has as its keys the
    C strings that these point to. -/

namespace Nget
open CString

def glcacheVersion : Text := "NGETGL1".toList

/-- `c_nntp_grouplist_server_info`. -/
structure GrouplistServerInfo where
  serverid : UInt64
  date : Text := []
deriving DecidableEq

/-- `c_server_group_description`. -/
structure ServerGroupDescription where
  description : Text
  serverids : SortedSet UInt64 := ∅
deriving DecidableEq

/-- `c_group_availability`. -/
structure GroupAvailability where
  groupname : Text
  serverids : SortedSet UInt64 := ∅
  servergroups : SortedMap Text ServerGroupDescription := ∅
deriving DecidableEq

namespace GroupAvailability

/-- The first description that has the server. -/
def findServer (g : GroupAvailability) (serverid : UInt64) : Option (Text × ServerGroupDescription) :=
  g.servergroups.entries.find? fun e => serverid ∈ e.2.serverids

/-- The server taken out of a description, and the description taken out if it was the last one. -/
def eraseServer (servergroups : SortedMap Text ServerGroupDescription) (serverid : UInt64)
    (si : Text × ServerGroupDescription) :
    SortedMap Text ServerGroupDescription :=
  let serverids := si.2.serverids.erase serverid
  if serverids.isEmpty then servergroups.erase si.1 else servergroups.assign si.1 { si.2 with serverids }

/-- `addserverdescription`: whether it changed anything, and the group. -/
def addserverdescription (serverid : UInt64) (desc : Text) (g : GroupAvailability) : Bool × GroupAvailability :=
  let di := g.servergroups.find? (cstr desc)
  let si := g.findServer serverid
  if si.isSome && si.map (·.1) = di.map (·.1) then (false, g)
  else
    let servergroups :=
      match si with
      | some si => eraseServer g.servergroups serverid si
      | none => g.servergroups
    let servergroups :=
      match di with
      | some di => servergroups.assign di.1 { di.2 with serverids := di.2.serverids.insert serverid }
      | none => servergroups.insertNew (cstr desc) ⟨desc, (∅ : SortedSet UInt64).insert serverid⟩
    (true, { g with servergroups })

end GroupAvailability

/-- `c_nntp_grouplist`. -/
structure Grouplist where
  filename : Text := []
  saveit : Bool := false
  serverInfo : SortedMap UInt64 GrouplistServerInfo := ∅
  groups : SortedMap Text GroupAvailability := ∅

namespace Grouplist

/-- `getserverinfo`, up to what it returns. -/
def getserverinfo (serverid : UInt64) (gl : Grouplist) : Grouplist :=
  { gl with serverInfo := gl.serverInfo.insertNew serverid ⟨serverid, []⟩ }

/-- `getserverinfo(serverid)->date = date`. -/
def setDate (serverid : UInt64) (date : Text) (gl : Grouplist) : Grouplist :=
  let gl := gl.getserverinfo serverid
  match gl.serverInfo.find? serverid with
  | some e => { gl with serverInfo := gl.serverInfo.assign serverid { e.2 with date } }
  | none => gl

/-- The group of this name, or a new one. -/
def findGroup (name : Text) (gl : Grouplist) : GroupAvailability :=
  match gl.groups.find? (cstr name) with
  | some e => e.2
  | none => ⟨name, ∅, ∅⟩

def addgroup (serverid : UInt64) (name : Text) (gl : Grouplist) : Grouplist :=
  let group := gl.findGroup name
  if serverid ∈ group.serverids then { gl with groups := gl.groups.assign (cstr name) group }
  else
    { gl with
      groups := gl.groups.assign (cstr name) { group with serverids := group.serverids.insert serverid }
      saveit := true }

def addgroupdesc (serverid : UInt64) (name desc : Text) (gl : Grouplist) : Grouplist :=
  let (changed, group) := (gl.findGroup name).addserverdescription serverid desc
  { gl with groups := gl.groups.assign (cstr name) group, saveit := gl.saveit || changed }

/-- The loop of `flushserver` over the descriptions of a group: those that are left, and how many had the
    server. -/
def flushDescriptions (serverid : UInt64) : List (Text × ServerGroupDescription) → SortedMap Text ServerGroupDescription → Nat →
    SortedMap Text ServerGroupDescription × Nat
  | [], servergroups, countds => (servergroups, countds)
  | gd :: gds, servergroups, countds =>
    flushDescriptions serverid gds (GroupAvailability.eraseServer servergroups serverid gd)
      (if serverid ∈ gd.2.serverids then countds + 1 else countds)

/-- The loop of `flushserver` over the groups: those that are left, how many the server was in, and how many
    descriptions it had. -/
def flushGroups (serverid : UInt64) : List (Text × GroupAvailability) → SortedMap Text GroupAvailability → Nat → Nat →
    SortedMap Text GroupAvailability × Nat × Nat
  | [], groups, countgs, countds => (groups, countgs, countds)
  | (name, group) :: gis, groups, countgs, countds =>
    let (servergroups, countds) := flushDescriptions serverid group.servergroups.entries group.servergroups countds
    let countgs := if serverid ∈ group.serverids then countgs + 1 else countgs
    let group := { group with servergroups, serverids := group.serverids.erase serverid }
    let groups := if group.serverids.isEmpty && group.servergroups.isEmpty then groups.erase name else groups.assign name group
    flushGroups serverid gis groups countgs countds

def flushserver (serverid : UInt64) (gl : Grouplist) : Grouplist :=
  let servinfoerased := (gl.serverInfo.find? serverid).isSome
  let (groups, countgs, countds) := flushGroups serverid gl.groups.entries gl.groups 0 0
  { gl with
    serverInfo := gl.serverInfo.erase serverid
    groups
    saveit := gl.saveit || servinfoerased || countgs ≠ 0 || countds ≠ 0 }

end Grouplist

/-! ### Reading -/

/-- `c_nntp_grouplist_reader`: the rest of the file, its counters, and how often `set_cache_warn_status` was
    called. -/
structure GrouplistReader where
  f : Text
  curline : UInt64 := 0
  countdeads : UInt64 := 0
  countdeadg : UInt64 := 0
  warns : Nat := 0

namespace GrouplistReader

def unexpectedEof (r : GrouplistReader) : Text := "unexpected EOF on grouplist file line ".toList ++ printUlong r.curline

def warn (r : GrouplistReader) : GrouplistReader := { r with warns := r.warns + 1 }

/-- The line that ends a section, with a warning for what stands behind its dot. -/
def endLine (r : GrouplistReader) : GrouplistReader :=
  let (line, f) := bgetsp r.f
  if line.getD 1 nul ≠ nul then { r with f }.warn else { r with f }

section
variable (hasserver : UInt64 → Bool)

/-- The loop of the constructor, for so many lines at most: what it throws, and the server infos. -/
def readServerInfo : Nat → GrouplistReader → SortedMap UInt64 GrouplistServerInfo →
    Option Text × GrouplistReader × SortedMap UInt64 GrouplistServerInfo
  | fuel, r, serverInfo =>
    if r.f.isEmpty then (some r.unexpectedEof, r, serverInfo)
    else
      let r := { r with curline := r.curline + 1 }
      if r.f.head? = some '.' then (none, r.endLine, serverInfo)
      else
        match fuel with
        | 0 => (some r.unexpectedEof, r, serverInfo)
        | fuel + 1 =>
          let (i, t, f) := btoks '\t' 2 true r.f
          let r := { r with f }
          if i = 2 then
            let serverid := atoul (t.getD 0 [])
            if hasserver serverid then readServerInfo fuel r (serverInfo.insertNew serverid ⟨serverid, t.getD 1 []⟩)
            else readServerInfo fuel r.warn serverInfo
          else readServerInfo fuel r.warn serverInfo

/-- The constructor. -/
def start (f : Text) : Option Text × GrouplistReader × SortedMap UInt64 GrouplistServerInfo :=
  let r : GrouplistReader := { f }
  if f.isEmpty then (some r.unexpectedEof, r, ∅)
  else
    let (line, f) := bgetsp f
    let r := { r with f, curline := r.curline + 1 }
    if line = glcacheVersion then readServerInfo hasserver f.length r ∅
    else if "NGETGL".toList <+: line then (some "grouplist is from a different version of nget".toList, r, ∅)
    else (some "does not seem to be an nget grouplist file".toList, r, ∅)

/-- The loop over the servers of a group. -/
def readServers : List Text → GrouplistReader → GroupAvailability → GrouplistReader × GroupAvailability
  | [], r, gd => (r, gd)
  | cp :: cps, r, gd =>
    let serverid := atoul cp
    if hasserver serverid then readServers cps r { gd with serverids := gd.serverids.insert serverid }
    else readServers cps { r with countdeads := r.countdeads + 1 } gd

/-- The loop over the servers of a description. -/
def readDescriptionServers (desc : Text) : List Text → GrouplistReader → GroupAvailability → GrouplistReader × GroupAvailability
  | [], r, gd => (r, gd)
  | cp :: cps, r, gd =>
    let serverid := atoul cp
    if hasserver serverid then readDescriptionServers desc cps r (gd.addserverdescription serverid desc).2
    else readDescriptionServers desc cps { r with countdeads := r.countdeads + 1 } gd

/-- The loop over the descriptions of a group, for so many lines at most. -/
def readDescriptions : Nat → GrouplistReader → GroupAvailability → GrouplistReader × GroupAvailability
  | fuel, r, gd =>
    if r.f.isEmpty then (r, gd)
    else
      let r := { r with curline := r.curline + 1 }
      if r.f.head? = some '.' then (r.endLine, gd)
      else
        match fuel with
        | 0 => (r, gd)
        | fuel + 1 =>
          let (i, t, f) := btoks '\t' 2 false r.f
          let r := { r with f }
          if i = 2 then
            let (r, gd) := readDescriptionServers hasserver (t.getD 1 []) (split ',' (t.getD 0 [])) r gd
            readDescriptions fuel r gd
          else readDescriptions fuel r.warn gd

/-- The loop of `read_group`, for so many lines at most, with the group that was read last. -/
def readGroupLoop : Nat → GrouplistReader → Option GroupAvailability → GrouplistReader × Except Text (Option GroupAvailability)
  | fuel, r, gd =>
    if r.f.isEmpty then
      match gd with
      | some _ => (r, .error r.unexpectedEof)
      | none => (r, .ok none)
    else
      match fuel with
      | 0 => (r, .error r.unexpectedEof)
      | fuel + 1 =>
        let r := { r with curline := r.curline + 1 }
        let (i, t, f) := btoks '\t' 2 true r.f
        let r := { r with f }
        if i = 2 then
          let servers := (split ',' (t.getD 0 [])).takeWhile fun cp => !cp.isEmpty
          let (r, gd) := readServers hasserver servers r ⟨t.getD 1 [], ∅, ∅⟩
          let (r, gd) := readDescriptions hasserver r.f.length r gd
          if !gd.servergroups.isEmpty || !gd.serverids.isEmpty then (r, .ok (some gd))
          else readGroupLoop fuel { r with countdeadg := r.countdeadg + 1 } (some gd)
        else readGroupLoop fuel r.warn gd

/-- `read_group`. Each turn reads a line, so there are no more turns than characters. -/
def readGroup (r : GrouplistReader) : GrouplistReader × Except Text (Option GroupAvailability) :=
  readGroupLoop hasserver r.f.length r none

/-- The loop over the groups, for so many at most: the groups, and what is thrown. -/
def readGroups : Nat → GrouplistReader → SortedMap Text GroupAvailability →
    GrouplistReader × SortedMap Text GroupAvailability × Option Text
  | fuel, r, groups =>
    match readGroup hasserver r with
    | (r, .ok none) => (r, groups, none)
    | (r, .error e) => (r, groups, some e)
    | (r, .ok (some ng)) =>
      match fuel with
      | 0 => (r, groups.insertNew (cstr ng.groupname) ng, none)
      | fuel + 1 => readGroups fuel r (groups.insertNew (cstr ng.groupname) ng)

end
end GrouplistReader

namespace Grouplist

/-- The constructor from a file, which may not exist. -/
def load (hasserver : UInt64 → Bool) (filename : Text) (file : Option Text) : Grouplist :=
  match file with
  | none => { filename }
  | some f =>
    match GrouplistReader.start hasserver f with
    | (some _, _, serverInfo) => { filename, serverInfo }
    | (none, r, serverInfo) => { filename, serverInfo, groups := (GrouplistReader.readGroups hasserver r.f.length r ∅).2.1 }

/-! ### Saving -/

def serverids (ids : SortedSet UInt64) : Text := joinWith ',' (ids.toList.map printUlong)

def grouplistServerLine (e : UInt64 × GrouplistServerInfo) : Text := joinWith '\t' [printUlong e.1, cstr e.2.date]

def descriptionLine (sgd : ServerGroupDescription) : Text := joinWith '\t' [serverids sgd.serverids, cstr sgd.description]

def groupLines (gd : GroupAvailability) : List Text :=
  joinWith '\t' [serverids gd.serverids, cstr gd.groupname] ::
    (gd.servergroups.entries.map (fun e => descriptionLine e.2) ++ [['.']])

/-- The lines that `save` writes. -/
def grouplistLines (gl : Grouplist) : List Text :=
  glcacheVersion ::
    (gl.serverInfo.entries.map grouplistServerLine ++ [['.']] ++ gl.groups.entries.flatMap fun e => groupLines e.2)

/-- The text that `save` writes, if it writes one. -/
def save (gl : Grouplist) : Option Text :=
  if !gl.saveit || gl.filename.isEmpty then none else some (NntpCache.putLines gl.grouplistLines)

end Grouplist
end Nget

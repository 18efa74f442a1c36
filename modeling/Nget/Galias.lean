import Nget.CString
import Nget.Lib.SortedMap

/-! The galias section and what it makes of a group specification (`server.h`, `server.cc`). A pointer to a
    `c_group_info` is the place of the group in the list of all that were made; none stands for the null
    pointer. The recursion of `dogetgroups` is for so many levels at most. -/

namespace Nget
open CString

/-- `c_group_info`; `priogrouping` is the alias of the grouping. -/
structure GroupInfo where
  alia : Text
  group : Text
  priogrouping : Text
  usegz : Int32
deriving DecidableEq

/-- The fields of `c_nget_config` that the names of groups are looked up in, and the groups that were made. -/
structure NgetConfig where
  /-- The aliases of `prioritygroupings`. -/
  prioritygroupings : List Text := []
  groups : SortedMap Text Nat := ∅
  metagroups : SortedMap Text Text := ∅
  infos : List GroupInfo := []
deriving DecidableEq

/-- The items of a section of galias, with what `get` makes of `usegz`. -/
structure GaliasSection where
  group : Text := []
  prio : Text := []
  usegz : Int32 := -2

/-- The galias section: its items and its sections. -/
structure Galias where
  items : SortedMap Text Text := ∅
  sections : SortedMap Text GaliasSection := ∅

namespace NgetConfig

/-! ### Aliases -/

def addmetagroup (alia name : Text) (cfg : NgetConfig) : NgetConfig :=
  { cfg with metagroups := cfg.metagroups.insertNew alia name }

def addgroup (alia name prio : Text) (usegz : Int32) (cfg : NgetConfig) : Option Nat × NgetConfig :=
  let prio := if prio.isEmpty then "default".toList else prio
  if prio ∈ cfg.prioritygroupings then
    let group := cfg.infos.length
    let groups := if !alia.isEmpty then cfg.groups.insertNew alia group else cfg.groups
    (some group, { cfg with groups := groups.insertNew name group, infos := cfg.infos ++ [⟨alia, name, prio, usegz⟩] })
  else (none, cfg)

def addgroupOrMetagroup (alia name : Text) (cfg : NgetConfig) : NgetConfig :=
  if ',' ∈ name then cfg.addmetagroup alia name else (cfg.addgroup alia name [] (-2)).2

/-- What `setlist` does with the galias section, when these priority groupings are known. -/
def setGalias (prioritygroupings : List Text) (ginfo : Galias) : NgetConfig :=
  let cfg : NgetConfig := { prioritygroupings := if "default".toList ∈ prioritygroupings then prioritygroupings
    else prioritygroupings ++ ["default".toList] }
  let cfg := ginfo.items.entries.foldl (fun cfg di => cfg.addgroupOrMetagroup di.1 di.2) cfg
  ginfo.sections.entries.foldl (fun cfg ds => (cfg.addgroup ds.1 ds.2.group ds.2.prio ds.2.usegz).2) cfg

/-! ### Groups -/

def getgroup (groupname : Text) (cfg : NgetConfig) : Option Nat × NgetConfig :=
  match cfg.groups.find? groupname with
  | some e => (some e.2, cfg)
  | none => cfg.addgroup [] groupname [] (-2)

end NgetConfig

/-- What `dogetgroups` changes: the configuration, and the vector of groups. An exception leaves the
    configuration. -/
structure Getgroups where
  cfg : NgetConfig
  groups : List (Option Nat) := []

namespace Getgroups

/-- `groups.push_back(getgroup(name))`. -/
def push (name : Text) (st : Getgroups) : Getgroups :=
  let (group, cfg) := st.cfg.getgroup name
  ⟨cfg, st.groups ++ [group]⟩

/-- The part of a file's name before `,cache`. -/
def cacheName : Text → Option Text
  | [] => none
  | c :: cs => if ",cache".toList <+: c :: cs then some [] else (cacheName cs).map (c :: ·)

/-- The directory of the caches: the names of its files, or what `opendir` fails with. -/
abbrev CacheDir := Except Text (List Text)

def dogetallcachedgroups (dir : CacheDir) (st : Getgroups) : Except (Text × NgetConfig) Getgroups :=
  match dir with
  | .error e => .error (e, st.cfg)
  | .ok names => .ok ((names.filterMap cacheName).foldl (fun st name => st.push name) st)

/-- One name of the loop, with what is done for a metagroup; none stands for a recursion that goes on. -/
def expandName (dir : CacheDir) (expand : Text → Getgroups → Option (Except (Text × NgetConfig) Getgroups)) (name : Text)
    (st : Getgroups) : Option (Except (Text × NgetConfig) Getgroups) :=
  if name = "*".toList then some (dogetallcachedgroups dir st)
  else
    match st.cfg.metagroups.find? name with
    | some mg => expand mg.2 st
    | none => some (.ok (st.push name))

/-- The loop over the names. -/
def expandNames (dir : CacheDir) (expand : Text → Getgroups → Option (Except (Text × NgetConfig) Getgroups)) :
    List Text → Getgroups → Option (Except (Text × NgetConfig) Getgroups)
  | [], st => some (.ok st)
  | name :: names, st =>
    match expandName dir expand name st with
    | none => none
    | some (.error e) => some (.error e)
    | some (.ok st) => expandNames dir expand names st

/-- `dogetgroups`, for so many levels at most. -/
def dogetgroups (dir : CacheDir) : Nat → Text → Getgroups → Option (Except (Text × NgetConfig) Getgroups)
  | 0, _, _ => none
  | fuel + 1, names, st => expandNames dir (dogetgroups dir fuel) (split ',' names) st

/-- The loop of `getgroups`, which keeps the first of equal pointers. -/
def uniqueGroups (tmpgroups : List (Option Nat)) : List (Option Nat) :=
  tmpgroups.foldl (fun groups g => if g ∈ groups then groups else groups ++ [g]) []

/-- `getgroups`: the vector that it fills. -/
def getgroups (dir : CacheDir) (fuel : Nat) (names : Text) (cfg : NgetConfig) : Option (Except (Text × NgetConfig) Getgroups) :=
  (dogetgroups dir fuel names { cfg }).map fun r => r.map fun st => { st with groups := uniqueGroups st.groups }

end Getgroups
end Nget

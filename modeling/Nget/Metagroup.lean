import Nget.CacheFile

/-! Reading the caches of several groups as one (`nntp_cache_getfiles` for groups, `mergefile`). The readers share the
    record of message-ids and the warnings, so each call hands them on. -/

namespace Nget

namespace NntpFile

/-- One turn of `mergefile`'s loop; none when the part stays where it is. -/
def mergePart (f : NntpFile) (p : NntpPart) : Option NntpFile :=
  match NntpFileParts.part f.parts p.partnum with
  | none =>
    let f := f.addpart { p with articles := [] }
    (NntpFileParts.part f.parts p.partnum).map fun mp => f.pushArticles mp p.articles
  | some mp => if mp.messageid = p.messageid then some (f.pushArticles mp p.articles) else none

/-- The loop of `mergefile`: the file, and the parts that stay. -/
def mergeParts (f : NntpFile) : List NntpPart → NntpFile × List NntpPart
  | [] => (f, [])
  | p :: ps =>
    match f.mergePart p with
    | some f => f.mergeParts ps
    | none => ((f.mergeParts ps).1, p :: (f.mergeParts ps).2)

/-- `mergefile`: both files, the second one without the parts that went into the first. -/
def mergefile (mergef f : NntpFile) : NntpFile × NntpFile :=
  let r := { mergef with update := if mergef.update < f.update then f.update else mergef.update }.mergeParts f.parts
  (r.1, { f with parts := r.2 })

end NntpFile

/-- An entry of `nfiles`, and of `readers`, which runs beside it. -/
structure MergeSlot where
  nfile : NntpFile
  reader : CacheReader

/-- What the readers share: the record of message-ids, and how often a warning was given. -/
structure ReaderShared where
  midinfo : MetaMidInfo
  warned : Nat := 0

/-- A reader with what is shared as it is now. -/
def CacheReader.withShared (r : CacheReader) (sh : ReaderShared) : CacheReader :=
  { r with midinfo := sh.midinfo, warned := sh.warned }

def CacheReader.shared (r : CacheReader) : ReaderShared := ⟨r.midinfo, r.warned⟩

/-- Why the loop does not end by itself. -/
inductive MergeStop where
  /-- A file is below the one that its reader gave before. -/
  | assertion
  | going

/-- What a run of the loop leaves: the files that were passed on, in their order, and the state that they were passed to. -/
structure MergeRun (S : Type) where
  passed : List NntpFile
  shared : ReaderShared
  state : S

namespace Metagroup
variable (hasserver : UInt64 → Bool) (now : Int64)

/-! ### The start -/

/-- The loop over the groups, each with the text of its cache, if there is one. -/
def openReaders : List (Text × Option Text) → ReaderShared → List MergeSlot × List UInt64 × ReaderShared
  | [], sh => ([], [], sh)
  | (_, none) :: groups, sh => openReaders groups sh
  | (group, some f) :: groups, sh =>
    match CacheReader.start hasserver f sh.midinfo ∅ group with
    | (some _, r, _) => openReaders groups (r.withShared ⟨r.midinfo, sh.warned + r.warned⟩).warn.shared
    | (none, r, serverInfo) =>
      let r := r.withShared ⟨r.midinfo, sh.warned + r.warned⟩
      if r.cacheSortver ≠ cacheSortver then openReaders groups r.warn.shared
      else
        let used := (serverInfo.entries.filter fun e => 0 < e.2.num).map (·.1)
        let (slot, sh) := match CacheReader.readFile hasserver now r with
          | (r, .ok (some nf)) => ([⟨nf, r⟩], r.shared)
          | (r, .ok none) => ([], r.shared)
          | (r, .error _) => ([], r.warn.shared)
        let (slots, used', sh) := openReaders groups sh
        (slot ++ slots, used ++ used', sh)

/-! ### One round -/

/-- `min_element`: the index of the first file that no file is below, and the file. -/
def minElement (best : Nat × NntpFile) (i : Nat) : List MergeSlot → Nat × NntpFile
  | [] => best
  | slot :: slots =>
    minElement (if slot.nfile.toNntpFileBase.lt best.2.toNntpFileBase then (i, slot.nfile) else best) (i + 1) slots

/-- The next file of a slot's reader; no slot when there is none. None stands for the assertion's failure. -/
def refill (slot : MergeSlot) (sh : ReaderShared) : Option (Option MergeSlot × ReaderShared) :=
  match CacheReader.readFile hasserver now (slot.reader.withShared sh) with
  | (r, .ok (some nf)) => if nf.toNntpFileBase.lt slot.nfile.toNntpFileBase then none else some (some ⟨nf, r⟩, r.shared)
  | (r, .ok none) => some (none, r.checkCounts.shared)
  | (r, .error _) => some (none, r.warn.checkCounts.shared)

/-- The loop over the slots from index `i` on; `m` is the index that the slot of `mergef` had when the round began. -/
def mergeSlots (m : Nat) : Nat → List MergeSlot → NntpFile → ReaderShared → Option (List MergeSlot × NntpFile × ReaderShared)
  | _, [], mergef, sh => some ([], mergef, sh)
  | i, slot :: slots, mergef, sh =>
    if i = m || slot.nfile.toNntpFileBase = mergef.toNntpFileBase then
      let (mergef, nfile) := if i ≠ m then mergef.mergefile slot.nfile else (mergef, mergef)
      if i = m || nfile.parts.isEmpty then
        match refill hasserver now { slot with nfile } sh with
        | none => none
        | some (slot, sh) => (mergeSlots m (i + 1) slots mergef sh).map fun r => (slot.toList ++ r.1, r.2)
      else (mergeSlots m (i + 1) slots mergef sh).map fun r => ({ slot with nfile } :: r.1, r.2)
    else (mergeSlots m (i + 1) slots mergef sh).map fun r => (slot :: r.1, r.2)

/-! ### The loop -/

section
variable {S : Type} (getfile : NntpFile → MetaMidInfo → S → MetaMidInfo × S)

/-- The loop, for so many rounds at most. `getfile` is `nntp_cache_getfile` with what it changes beside the record of
    message-ids. -/
def mergeLoop : Nat → List MergeSlot → ReaderShared → S → Except MergeStop (MergeRun S)
  | _, [], sh, s => .ok ⟨[], sh, s⟩
  | 0, _ :: _, _, _ => .error .going
  | fuel + 1, slot :: slots, sh, s =>
    let (m, mergef) := minElement (0, slot.nfile) 1 slots
    match mergeSlots hasserver now m 0 (slot :: slots) mergef sh with
    | none => .error .assertion
    | some (slots, mergef, sh) =>
      let (midinfo, s) := getfile mergef sh.midinfo s
      (mergeLoop fuel slots { sh with midinfo } s).map fun r => { r with passed := mergef :: r.passed }

/-- Each round takes a file off the text of a reader, or the reader. -/
def rounds (slots : List MergeSlot) : Nat := (slots.map fun slot => slot.reader.f.length + 1).sum

/-- `nntp_cache_getfiles` for several groups: whether several servers are in use, and the run. -/
def nntpCacheGetfiles (groups : List (Text × Option Text)) (midinfo : MetaMidInfo) (s : S) :
    Bool × Except MergeStop (MergeRun S) :=
  let (slots, usedservers, sh) := openReaders hasserver now groups { midinfo }
  (1 < usedservers.dedup.length, mergeLoop hasserver now getfile (rounds slots) slots sh s)

end
end Metagroup
end Nget

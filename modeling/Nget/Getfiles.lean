import Nget.Par

/-! Choosing the files to retrieve (`nntp_cache_getfile`, `c_nntp_cache::getfiles` in `cache.cc`): each file of the cache
    goes through the retrieve requests until one of them queues it. -/

namespace Nget

def getfilesNodupeidcheck : UInt32 := 4
def getfilesDupefilemark : UInt32 := 256

/-- `c_nntp_getinfo`: a retrieve request, with the flags and the paths as they are at its place on the command line. -/
structure NntpGetinfo where
  path : Text
  temppath : Text
  flags : UInt32
  pred : NntpFile → Bool
  /-- `flist.checkhavefile`. -/
  checkhavefile : Text → Text → UInt64 → Bool

/-- One of the flags is set. -/
def NntpGetinfo.has (info : NntpGetinfo) (flags : UInt32) : Bool := info.flags &&& flags ≠ 0

/-- What the walk over the cache changes. -/
structure Getfiles (W : Type) where
  fc : NntpFilesU := {}
  handler : ParHandler := {}
  midinfo : MetaMidInfo := {}
  world : W

/-- How the body of the loop over the requests ends: it goes on, it returns, or something throws. -/
inductive GetfileEnd where
  | next
  | done
  | stopped (stop : ParStop)

section
variable {W : Type} (par : ParOutside W) (time : W → Int64)

/-- The condition of a request on a file. -/
def NntpGetinfo.asks (info : NntpGetinfo) (f : NntpFile) (midinfo : MetaMidInfo) : Bool :=
  (!info.has getfilesAutoparDisablingFlags || info.has getfilesGetincomplete || f.iscomplete par.lines) &&
    (info.has getfilesNodupeidcheck || !midinfo.check f.bamid) && info.pred f

/-- A file of the same date and message-id is in the queue. -/
def NntpFilesU.queued (fc : NntpFilesU) (f : NntpFile) : Bool :=
  fc.files.any fun fr => fr.file.badate = f.badate && fr.file.bamid = f.bamid

/-- The dupe check of a request finds the file. -/
def NntpGetinfo.dupe (info : NntpGetinfo) (f : NntpFile) : Bool :=
  !info.has getfilesNodupefilecheck && info.checkhavefile f.subject f.bamid (f.sumParts par.bytes)

/-- The end of the body, where the file is queued. -/
def queueFile (info : NntpGetinfo) (f : NntpFile) (st : Getfiles W) : GetfileEnd × Getfiles W :=
  if st.fc.queued f then (.done, st)
  else if info.dupe par f then
    (.next, if info.has getfilesDupefilemark then { st with midinfo := st.midinfo.insert f (time st.world) } else st)
  else (.done, { st with fc := st.fc.addfile par ⟨info.path, info.temppath, f, true⟩ })

/-- The body of the loop over the requests. -/
def getfileStep (info : NntpGetinfo) (f : NntpFile) (st : Getfiles W) : GetfileEnd × Getfiles W :=
  if !info.asks par f st.midinfo then (.next, st)
  else if info.has getfilesAutoparDisablingFlags then queueFile par time info f st
  else
    match ParHandler.maybeAddParfile par f info.path info.temppath (info.has getfilesGetincomplete)
      ⟨st.handler, [], st.world⟩ with
    | (.error stop, c) => (.stopped stop, { st with handler := c.info, world := c.world })
    | (.ok true, c) => (.next, { st with handler := c.info, world := c.world })
    | (.ok false, c) =>
      if !(info.has getfilesGetincomplete || f.iscomplete par.lines)
        then (.next, { st with handler := c.info, world := c.world })
      else queueFile par time info f { st with handler := c.info, world := c.world }

/-- `nntp_cache_getfile`, with what it throws. -/
def nntpCacheGetfile (f : NntpFile) : List NntpGetinfo → Getfiles W → Option ParStop × Getfiles W
  | [], st => (none, st)
  | info :: infos, st =>
    match getfileStep par time info f st with
    | (.next, st) => nntpCacheGetfile f infos st
    | (.done, st) => (none, st)
    | (.stopped stop, st) => (some stop, st)

/-- `c_nntp_cache::getfiles`. -/
def getfiles (infos : List NntpGetinfo) : List NntpFile → Getfiles W → Option ParStop × Getfiles W
  | [], st => (none, st)
  | f :: fs, st =>
    match nntpCacheGetfile par time f infos st with
    | (none, st) => getfiles infos fs st
    | (some stop, st) => (some stop, st)

end
end Nget

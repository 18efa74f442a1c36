import Nget.MidInfo
import Nget.Nrange

/-! The header cache in memory (`c_nntp_cache` in `cache.h`, `cache.cc`): the files in the order of their
    keys, the interval and the count of articles of each server, and the operations that add headers, flush
    articles, and take the numbers that are cached out of a range. The two extents of a file's keys that
    `equal_range` gives are found by walking the list. -/

namespace Nget

/-- `c_nntp_server_info`. -/
structure NntpServerInfo where
  serverid : UInt64
  high : UInt64 := 0
  low : UInt64 := 0xFFFFFFFFFFFFFFFF
  num : UInt64 := 0
deriving DecidableEq

/-- The server's interval and count with one more article. -/
def NntpServerInfo.addArticle (si : NntpServerInfo) (articlenum : UInt64) : NntpServerInfo :=
  { si with
    high := if si.high < articlenum then articlenum else si.high
    low := if articlenum < si.low then articlenum else si.low
    num := si.num + 1 }

/-- `c_nntp_cache`. `fileread` is what the source's constructors set: not from a file, the file was not
    read, the file was read. -/
structure NntpCache where
  files : List NntpFile := []
  totalnum : UInt64 := 0
  serverInfo : SortedMap UInt64 NntpServerInfo := ∅
  group : Text := []
  saveit : Bool := false
  fileread : Int32 := -1
deriving DecidableEq

namespace NntpCache

instance : EmptyCollection NntpCache := ⟨{}⟩

/-- The `c_nntp_server_info` that a server's id finds, or the one that `getserverinfo` makes for it. -/
def servinfo (c : NntpCache) (serverid : UInt64) : NntpServerInfo :=
  ((c.serverInfo.find? serverid).map (·.2)).getD { serverid }

/-- `getserverinfo`, for its effect; the pointer that it returns is read by `servinfo`. -/
def getserverinfo (c : NntpCache) (serverid : UInt64) : NntpCache :=
  { c with serverInfo := c.serverInfo.insertNew serverid { serverid } }

/-- A write through the pointer that `getserverinfo` returned. -/
def setServinfo (c : NntpCache) (serverid : UInt64) (si : NntpServerInfo) : NntpCache :=
  { c with serverInfo := c.serverInfo.assign serverid si }

/-! ### `additem` -/

/-- What the loop of `additem` does with the files of the header's key: the first file that has the part
    with the header's message-id gets an article, or the first that lacks the part gets the part. -/
def additemLoop (h : NntpHeader) (now : Int64) : List NntpFile → Option (List NntpFile × Bool)
  | [] => none
  | f :: fs =>
    match NntpFileParts.part f.parts h.partnum with
    | some matchpart =>
      if matchpart.messageid = h.messageid then
        let i := NntpFileParts.lowerBound f.parts h.partnum
        some ({ f with parts := f.parts.set i (matchpart.addserverarticle h) } :: fs, false)
      else (additemLoop h now fs).map fun r => (f :: r.1, r.2)
    | none => some (f.addnewpart (.ofHeader h) now :: fs, true)

/-- `additem`. The new file of a key goes behind the files that have the key. -/
def additem (c : NntpCache) (h : NntpHeader) (now : Int64) : NntpCache × Int32 :=
  let before := c.files.takeWhile fun f => f.toNntpFileBase.lt h.toNntpFileBase
  let rest := c.files.dropWhile fun f => f.toNntpFileBase.lt h.toNntpFileBase
  let irange := rest.takeWhile fun f => !h.toNntpFileBase.lt f.toNntpFileBase
  let after := rest.dropWhile fun f => !h.toNntpFileBase.lt f.toNntpFileBase
  let c := { c.setServinfo h.serverid ((c.servinfo h.serverid).addArticle h.articlenum) with saveit := true }
  match additemLoop h now irange with
  | some (irange, newpart) =>
    ({ c with
        files := before ++ irange ++ after
        totalnum := if newpart then c.totalnum + 1 else c.totalnum }, 0)
  | none =>
    ({ c with
        files := before ++ irange ++ (NntpFile.ofHeader h).addnewpart (.ofHeader h) now :: after
        totalnum := c.totalnum + 1 }, 1)

/-! ### `getxrange` -/

/-- The two-argument `getxrange`: the numbers of the server's articles are removed from the range. -/
def getxrangeOf (c : NntpCache) (serverid : UInt64) (range : Nrange) : Nrange :=
  c.files.foldl (fun range nf => nf.parts.foldl (fun range np => np.articles.foldl (fun range sa =>
    if sa.serverid = serverid then range.removeOne sa.articlenum else range) range) range) range

/-- The three-argument `getxrange`, on a range that it has cleared. -/
def getxrange (c : NntpCache) (serverid newlow newhigh : UInt64) : Nrange :=
  c.getxrangeOf serverid
    ((∅ : Nrange).insert (if newlow < (c.servinfo serverid).low then newlow else (c.servinfo serverid).low) newhigh)

/-! ### `flush` -/

/-- What the loops of `flush` count and change beside the files. -/
structure FlushState where
  count : UInt64 := 0
  countp : UInt64 := 0
  countf : UInt64 := 0
  midinfo : MetaMidInfo
  relMidinfo : MidInfo := {}

/-- The article is one of the server's and in the range. -/
def flushes (serverid : UInt64) (flushrange : Nrange) (sa : NntpServerArticle) : Bool :=
  sa.serverid = serverid && flushrange.check sa.articlenum

/-- The loop over a part's articles, from the last one down: the articles that stay, and how many go. -/
def flushArticles (serverid : UInt64) (flushrange : Nrange) : List NntpServerArticle → List NntpServerArticle × UInt64
  | [] => ([], 0)
  | sa :: sas =>
    let (sas, count) := flushArticles serverid flushrange sas
    if flushes serverid flushrange sa then (sas, count + 1) else (sa :: sas, count)

/-- The loop over a file's parts, from the last one down, with the file's `have`. -/
def flushParts (serverid : UInt64) (flushrange : Nrange) (req : Int32) (now : Int64) :
    List NntpPart → Int → FlushState → List NntpPart × Int × FlushState
  | [], haveNum, st => ([], haveNum, st)
  | np :: nps, haveNum, st =>
    let (nps, haveNum, st) := flushParts serverid flushrange req now nps haveNum st
    let (articles, count) := flushArticles serverid flushrange np.articles
    let st := { st with count := st.count + count }
    if articles.isEmpty then
      (nps, if countPartnum np.partnum req then haveNum - 1 else haveNum,
        { st with midinfo := st.midinfo.setDelete np.messageid now, countp := st.countp + 1 })
    else
      ({ np with articles } :: nps, haveNum,
        if st.midinfo.check np.messageid then { st with relMidinfo := st.relMidinfo.insert np.messageid now } else st)

/-- The loop over the files. -/
def flushFiles (serverid : UInt64) (flushrange : Nrange) (now : Int64) :
    List NntpFile → FlushState → List NntpFile × FlushState
  | [], st => ([], st)
  | nf :: nfs, st =>
    let (parts, haveNum, st) := flushParts serverid flushrange nf.req now nf.parts nf.haveNum st
    if parts.isEmpty then flushFiles serverid flushrange now nfs { st with countf := st.countf + 1 }
    else
      let (nfs, st) := flushFiles serverid flushrange now nfs st
      ({ nf with parts, haveNum } :: nfs, st)

/-- `flush`: the cache, the number of articles that went, and the record of retrieved message-ids. -/
def flush (c : NntpCache) (serverid : UInt64) (flushrange : Nrange) (midinfo : MetaMidInfo) (now : Int64) :
    NntpCache × UInt64 × MetaMidInfo :=
  let servinfo := c.servinfo serverid
  let flushrange := flushrange.remove 0 (servinfo.low - 1)
  let flushrange := flushrange.remove (servinfo.high + 1) Nrange.varmax
  if flushrange.empty then (c, 0, midinfo)
  else
    let (files, st) := flushFiles serverid flushrange now c.files { midinfo }
    ({ c.setServinfo serverid { servinfo with num := servinfo.num - st.count } with
        files
        totalnum := c.totalnum - st.countp
        saveit := c.saveit || st.count ≠ 0 },
      st.count, st.midinfo.doDeleteFun st.relMidinfo now)

/-- `flushlow`. -/
def flushlow (c : NntpCache) (serverid newlow : UInt64) (midinfo : MetaMidInfo) (now : Int64) :
    NntpCache × UInt64 × MetaMidInfo :=
  let (c, r, midinfo) := c.flush serverid ((∅ : Nrange).insert 0 (newlow - 1)) midinfo now
  (c.setServinfo serverid { c.servinfo serverid with low := newlow }, r, midinfo)

end NntpCache
end Nget

import Nget.Knapsack
import Nget.Lib.SortedList
import Nget.Lib.SortedMap
import Nget.Retrieve

/-! The handling of par files (`par.h`, `par.cc`). What it asks of the regular expressions, of the disk and of the par2
    library is the parameter `ParOutside`, over a state `W` of its own. The lists that the source keeps as multimaps are
    lists in the order of their keys. A call's `fc.addfile`s are the list of what they add: no call reads what is in
    `fc` after its first `addfile`. -/

namespace Nget
open CString

/-- `strtolower`, `lowerstr`. -/
def strtolower (s : Text) : Text := s.map Char.toLower

/-- `path_join`. -/
def pathJoin (a b : Text) : Text :=
  match a.getLast? with
  | none => b
  | some c => if c = '/' then a ++ b else a ++ '/' :: b

/-- The tail that `path_split` gives, with the path reversed. -/
def pathSplitTail : Text → Text → Text
  | [], tail => tail
  | c :: head, tail =>
    if c = '/' then
      let tail := if head.isEmpty then c :: tail else tail
      if tail.isEmpty then pathSplitTail head tail else tail
    else pathSplitTail head (c :: tail)

/-! ### What is outside -/

/-- `Par2RepairerSourceFile`: the name of its target, whether it has a complete file, its count of blocks. -/
structure Par2RepairerSourceFile where
  targetFileName : Text
  completeFile : Bool
  blockCount : UInt32

/-- What `Par2Repairer::Process` finds: whether it can go on with the file (success, repair possible or not possible),
    whether a repair is not possible, and what the repairer then holds. -/
structure Par2Repairer where
  good : Bool := false
  repairNotPossible : Bool := false
  /-- The keys of `recoverypacketmap`. -/
  recoverypackets : List UInt32 := []
  missingblockcount : UInt32 := 0
  sourcefiles : List Par2RepairerSourceFile := []

structure ParOutside (W : Type) where
  /-- `c_nntp_part::lines` and `c_nntp_part::bytes`, of the article of the most trusted server. -/
  lines : NntpPart → UInt64
  bytes : NntpPart → UInt64
  /-- The order of `server_file_key`; the key's first component is a `float`. -/
  keyLt : NntpFile → NntpFile → Bool
  /-- `(int)(blockcount * completeness)` of an incomplete file. -/
  completeBlocks : UInt32 → NntpFile → Int
  autoparOptimistic : Bool
  /-- What the two groups of `([^ ]*)\.p(ar|[0-9]{2})` match in a subject. -/
  parsubjRe : Text → Option (Text × Text)
  /-- What the group of `([^ ]*)\.par2` matches in a subject. -/
  par2subjRe : Text → Option Text
  /-- What the group of `^(.*).vol[0-9]+\+[0-9]+$` matches. -/
  par2pxxRe : Text → Option Text
  /-- What the first groups of the expressions for the names of par files match. -/
  parfileRe : Text → Option Text
  par2fileRe : Text → Option Text
  /-- The expression that is made for a basename, and what its groups match in a subject. -/
  subjmatchPar1 : Text → Text → Option Text
  subjmatchPar2 : Text → Text → Option (Text × Text × Text)
  readdir : Text → W → Except Text (List Text) × W
  parfileGetSethash : Text → W → Option Text × W
  par2fileGetSethash : Text → W → Option Text × W
  /-- The volume number of a par file, when it is good. -/
  parfileOk : Text → W → Option UInt32 × W
  parfileCheck : Text → Text → W → Except Text Int × W
  par2Process : Text → List Text → W → Except Text Par2Repairer × W
  setAutoparErrorStatus : W → W
  setAutoparOkStatus : W → W

/-- How a call stops: it throws, or an assertion fails. -/
inductive ParStop where
  | thrown (text : Text)
  | readd
  | subjmatches
  | parinfo
deriving DecidableEq

/-! ### The lists -/

section
variable {W : Type} (par : ParOutside W)

/-- An insertion into a `t_server_file_list`. -/
def insertServerFile (f : NntpFile) (l : List NntpFile) : List NntpFile := SortedList.insertUpper par.keyLt f l

/-- `ParSetInfo`. -/
structure ParSetInfo where
  serverpars : List NntpFile := []
  serverpxxs : List NntpFile := []

/-- The first of the smallest files of a list, and the others. -/
def takeSmallest : List NntpFile → Option (NntpFile × List NntpFile)
  | [] => none
  | f :: fs =>
    match takeSmallest fs with
    | none => some (f, [])
    | some (g, rest) => if g.sumParts par.bytes < f.sumParts par.bytes then some (g, f :: rest) else some (f, fs)

namespace ParSetInfo

def addserverpar (p : ParSetInfo) (f : NntpFile) : ParSetInfo := { p with serverpars := insertServerFile par f p.serverpars }

def addserverpxx (p : ParSetInfo) (f : NntpFile) : ParSetInfo := { p with serverpxxs := insertServerFile par f p.serverpxxs }

/-- The files added, and what is left. -/
def getInitialPars (p : ParSetInfo) : List NntpFile × ParSetInfo :=
  if p.serverpars.isEmpty then
    match takeSmallest par p.serverpxxs with
    | some (smallest, rest) => ([smallest], ⟨[], rest⟩)
    | none => ([], p)
  else (p.serverpars, { p with serverpars := [] })

end ParSetInfo

/-- `LocalParFiles`. A subject match is the basename that its expression is made for, with the set's hash; `basenames`
    has the same pairs. -/
structure LocalParFiles where
  subjmatches : List (Text × Text) := []
  basefilenames : SortedMap Text (List Text) := ∅
  badbasenames : List Text := []

namespace LocalParFiles

/-- `addsubjmatch_par1` and `addsubjmatch_par2`: one subject match for each basename. -/
def addsubjmatch (l : LocalParFiles) (key basename : Text) : LocalParFiles :=
  if (key, basename) ∈ l.subjmatches then l
  else { l with subjmatches := SortedList.insertUpper (fun a b => a.1 < b.1) (key, basename) l.subjmatches }

def pushBasefilename (l : LocalParFiles) (key name : Text) : LocalParFiles :=
  { l with basefilenames := l.basefilenames.assign key (((l.basefilenames.find? key).map (·.2)).getD [] ++ [name]) }

/-- The basenames of a set, in the order of its subject matches. -/
def basenames (l : LocalParFiles) (key : Text) : List Text := (l.subjmatches.filter (·.1 = key)).map (·.2)

/-- The loop over the names in a directory; `basenameOf` is what the name of a par file gives. -/
def addNames (basenameOf : Text → Option Text) (getSethash : Text → W → Option Text × W) (path : Text) :
    List Text → LocalParFiles → W → LocalParFiles × W
  | [], l, w => (l, w)
  | name :: names, l, w =>
    match basenameOf name with
    | none => addNames basenameOf getSethash path names l w
    | some basename =>
      match getSethash (pathJoin path name) w with
      | (some sethash, w) =>
        addNames basenameOf getSethash path names ((l.pushBasefilename sethash name).addsubjmatch sethash basename) w
      | (none, w) => addNames basenameOf getSethash path names { l with badbasenames := l.badbasenames.insert basename } w

/-- What the two `addfrompath`s share, from a cleared value. -/
def addfrompath (basenameOf : Text → Option Text) (getSethash : Text → W → Option Text × W) (path : Text) (w : W) :
    Except Text LocalParFiles × W :=
  match par.readdir path w with
  | (.error e, w) => (.error e, w)
  | (.ok names, w) =>
    let (l, w) := addNames basenameOf getSethash path names {} w
    (.ok l, w)

def addfrompathPar1 : Text → W → Except Text LocalParFiles × W :=
  addfrompath par (fun name => (par.parfileRe name).map strtolower) par.parfileGetSethash

def addfrompathPar2 : Text → W → Except Text LocalParFiles × W :=
  addfrompath par (fun name => (par.par2fileRe name).map fun basename => strtolower ((par.par2pxxRe basename).getD basename))
    par.par2fileGetSethash

/-- Each bad basename that no set has sets the error status. -/
def checkBadbasenames (l : LocalParFiles) (w : W) : W :=
  (l.badbasenames.filter fun b => !l.subjmatches.any (·.2 = b)).foldl (fun w _ => par.setAutoparErrorStatus w) w

end LocalParFiles

/-! ### What is known of a path -/

/-- `ParXInfoBase`, with the member that only `Par2Info` has. -/
structure ParXInfo where
  path : Text
  temppath : Text
  serverpars : List NntpFile := []
  serverpxxs : List NntpFile := []
  serverextradata : List NntpFile := []
  finishedParsets : List Text := []
  finishedOkcount : Nat := 0
  parsets : SortedMap Text ParSetInfo := ∅
  localpars : LocalParFiles := {}

namespace ParXInfo

/-- The set of a basename; one that is not there is made. -/
def parset (info : ParXInfo) (basename : Text) : ParSetInfo := ((info.parsets.find? basename).map (·.2)).getD {}

def setParset (info : ParXInfo) (basename : Text) (p : ParSetInfo) : ParXInfo :=
  { info with parsets := info.parsets.assign basename p }

/-- What `fc.addfile(f, path, temppath, false)` adds. -/
def retr (info : ParXInfo) (f : NntpFile) : NntpFileRetr := ⟨info.path, info.temppath, f, false⟩

/-- `get_initial_pars`: the files added, and what is left. -/
def getInitialPars (info : ParXInfo) : List NntpFile × ParXInfo :=
  (info.serverpars ++ info.parsets.entries.flatMap fun e => (e.2.getInitialPars par).1,
    { info with
      serverpars := []
      parsets := info.parsets.mapValues fun p => (p.getInitialPars par).2 })

/-- `release_unclaimed_pxxs` for each set: the unclaimed files, and what is left. -/
def releaseUnclaimedPxxs (info : ParXInfo) : List NntpFile × ParXInfo :=
  (info.parsets.entries.flatMap (·.2.serverpxxs),
    { info with parsets := info.parsets.mapValues fun p => { p with serverpxxs := [] } })

end ParXInfo

/-- A basename without the quote that starts it. -/
def unquote : Text → Text
  | '"' :: basename => basename
  | basename => basename

/-- The first subject match that matches, with what its groups match. -/
def firstMatch {α : Type} (subjmatch : Text → Text → Option α) (subject : Text) : List (Text × Text) → Option α
  | [] => none
  | smi :: smis =>
    match subjmatch smi.2 subject with
    | some subs => some subs
    | none => firstMatch subjmatch subject smis

/-! ### A file that may be a par file -/

/-- `Par1Info::maybe_add_parfile`; there is no value where the source returns false. -/
def par1MaybeAddParfile (info : ParXInfo) (f : NntpFile) (wantIncomplete : Bool) : Option ParXInfo :=
  if f.maybeATextpost par.lines then none
  else if !wantIncomplete && !f.iscomplete par.lines then none
  else
    match firstMatch par.subjmatchPar1 f.subject info.localpars.subjmatches with
    | some ext =>
      if (ext.headD nul).isAlpha then some { info with serverpars := insertServerFile par f info.serverpars }
      else some { info with serverpxxs := insertServerFile par f info.serverpxxs }
    | none =>
      match par.parsubjRe f.subject with
      | some (basename, ext) =>
        let basename := unquote basename
        if (ext.headD nul).isAlpha then some (info.setParset basename ((info.parset basename).addserverpar par f))
        else some (info.setParset basename ((info.parset basename).addserverpxx par f))
      | none => none

/-- `Par2Info::maybe_add_parfile`. -/
def par2MaybeAddParfile (info : ParXInfo) (f : NntpFile) (wantIncomplete : Bool) : Option ParXInfo :=
  if f.maybeATextpost par.lines then none
  else
    match firstMatch par.subjmatchPar2 f.subject info.localpars.subjmatches with
    | some (vol, _, _) =>
      if vol.isEmpty then some { info with serverpars := insertServerFile par f info.serverpars }
      else some { info with serverpxxs := insertServerFile par f info.serverpxxs }
    | none =>
      match par.par2subjRe f.subject with
      | some basename =>
        match par.par2pxxRe basename with
        | some basename =>
          let basename := unquote basename
          some (info.setParset basename ((info.parset basename).addserverpxx par f))
        | none =>
          let basename := unquote basename
          some (info.setParset basename ((info.parset basename).addserverpar par f))
      | none =>
        if !wantIncomplete && !f.iscomplete par.lines then
          some { info with serverextradata := insertServerFile par f info.serverextradata }
        else none

/-! ### More files of a set -/

/-- The volume that a file is added for: that of the first expression that matches its subject with a volume that is
    not had. -/
def pxxVolume (havevols : List UInt32) (subject : Text) : List Text → Option UInt32
  | [] => none
  | basename :: basenames =>
    match par.subjmatchPar1 basename subject with
    | some ext =>
      let vol := (atoi ext).toUInt32
      if vol ∈ havevols then pxxVolume havevols subject basenames else some vol
    | none => pxxVolume havevols subject basenames

/-- The volumes of a file that are not had. -/
def availableVolumes (havevols : List UInt32) (subject : Text) (basenames : List Text) : List UInt32 :=
  (basenames.filterMap fun basename =>
    (par.subjmatchPar1 basename subject).map fun ext => (atoi ext).toUInt32).filter (· ∉ havevols)

/-- The loop that counts the volumes that there are. -/
def countVolumes (num : Int) (havevols : List UInt32) (basenames : List Text) : List NntpFile → List UInt32 → List UInt32
  | [], availvols => availvols
  | f :: fs, availvols =>
    if (availvols.length : Int) < num then
      countVolumes num havevols basenames fs
        ((availableVolumes par havevols f.subject basenames).foldl (fun vols vol => vols.insert vol) availvols)
    else availvols

/-- The loop of `get_pxxs`, with so many files added: the files added and those that stay. -/
def takePxxs (num : Int) (basenames : List Text) : List NntpFile → Int → List UInt32 → List NntpFile × List NntpFile
  | [], _, _ => ([], [])
  | f :: fs, cur, havevols =>
    if cur < num then
      match pxxVolume par havevols f.subject basenames with
      | some vol =>
        let (added, kept) := takePxxs num basenames fs (cur + 1) (vol :: havevols)
        (f :: added, kept)
      | none =>
        let (added, kept) := takePxxs num basenames fs cur havevols
        (added, f :: kept)
    else ([], f :: fs)

/-- `Par1Info::get_pxxs`: the count that it returns, the files added, and what is left. -/
def getPxxs (num : Int) (havevols : List UInt32) (key : Text) (info : ParXInfo) : Int × List NntpFile × ParXInfo :=
  let basenames := info.localpars.basenames key
  if par.autoparOptimistic && (countVolumes par num havevols basenames info.serverpxxs []).length < num then (0, [], info)
  else
    let (added, kept) := takePxxs par num basenames info.serverpxxs 0 havevols
    (added.length, added, { info with serverpxxs := kept })

/-- The source file of an incomplete file: the first one without a complete file whose name is in the subject. -/
def sourceOf (par2 : Par2Repairer) (f : NntpFile) : Option Par2RepairerSourceFile :=
  par2.sourcefiles.find? fun sourcefile => !sourcefile.completeFile &&
    decide (strtolower (pathSplitTail sourcefile.targetFileName.reverse []) <:+: strtolower f.subject)

/-- The loop over the extra data, with so many blocks added: the blocks, the files added and those that stay. -/
def takeExtradata (num : Int) (par2 : Par2Repairer) : List NntpFile → Int → Int × List NntpFile × List NntpFile
  | [], added => (added, [], [])
  | f :: fs, added =>
    if added < num then
      match sourceOf par2 f with
      | some sourcefile =>
        let (added, items, kept) := takeExtradata num par2 fs (added + max 1 (par.completeBlocks sourcefile.blockCount f))
        (added, f :: items, kept)
      | none =>
        let (added, items, kept) := takeExtradata num par2 fs added
        (added, items, f :: kept)
    else (added, [], f :: fs)

/-- `Par2Info::get_extradata`. -/
def getExtradata (num : Int) (par2 : Par2Repairer) (info : ParXInfo) : Int × List NntpFile × ParXInfo :=
  let (added, items, kept) := takeExtradata par num par2 info.serverextradata 0
  if par.autoparOptimistic && added < num then (0, [], info)
  else (added, items, { info with serverextradata := kept })

/-- A file that may be got for its packets: its place in `serverpxxs`, the packets that are counted for it, and its
    size and value in the knapsack. -/
structure Candidate where
  item : Nat
  packets : List UInt32
  size : Int
  value : Int

/-- The packets from the first one up to the one before the last. -/
def packetRange (beginpacket endpacket : UInt32) : List UInt32 :=
  (List.range (endpacket.toNat - beginpacket.toNat)).map fun i => beginpacket + UInt32.ofNat i

/-- The loop over the expressions of a set for the file at place `item`. The value is an `int` in the source, which is the
    same while packets times parts stay below 2^31. -/
def fileCandidates (havepackets : List UInt32) (item : Nat) (f : NntpFile) :
    List Text → List UInt32 → List Candidate × List UInt32
  | [], availpackets => ([], availpackets)
  | basename :: basenames, availpackets =>
    match par.subjmatchPar2 basename f.subject with
    | some (_, first, count) =>
      let beginpacket := (atoi first).toUInt32
      let endpacket := (atoi count).toUInt32 + beginpacket
      let packets := (packetRange beginpacket endpacket).filter fun p => p ∉ havepackets && p ∉ availpackets
      let (candidates, availpackets') := fileCandidates havepackets item f basenames (availpackets ++ packets)
      if packets.isEmpty then (candidates, availpackets')
      else
        let value : Int := packets.length
        let value := if 1 ≤ f.req then max 1 ((value * f.haveNum).tdiv f.req.toInt) else value
        (⟨item, packets, (endpacket - beginpacket).toInt32.toInt, value⟩ :: candidates, availpackets')
    | none => fileCandidates havepackets item f basenames availpackets

/-- The loop over `serverpxxs` from place `item` on. -/
def candidates (havepackets : List UInt32) (basenames : List Text) :
    Nat → List NntpFile → List UInt32 → List Candidate × List UInt32
  | _, [], availpackets => ([], availpackets)
  | item, f :: fs, availpackets =>
    let (here, availpackets) := fileCandidates par havepackets item f basenames availpackets
    let (later, availpackets) := candidates havepackets basenames (item + 1) fs availpackets
    (here ++ later, availpackets)

/-- The files of a list without those at some places. -/
def eraseItems (l : List NntpFile) (items : List Nat) : List NntpFile :=
  ((List.range l.length).filter (· ∉ items)).filterMap (l[·]?)

/-- `Par2Info::get_recoverypackets`. -/
def getRecoverypackets (num : Int) (havepackets : List UInt32) (key : Text) (par2 : Par2Repairer) (info : ParXInfo) :
    Int × List NntpFile × ParXInfo :=
  let (cs, availpackets) := candidates par havepackets (info.localpars.basenames key) 0 info.serverpxxs []
  let (r, extradata, info) :=
    if (availpackets.length : Int) < num then getExtradata par (num - availpackets.length) par2 info else (0, [], info)
  if r ≠ 0 then (r, extradata, info)
  else if par.autoparOptimistic && (availpackets.length : Int) < num then (0, extradata, info)
  else
    let results := (knapsackMinsize (cs.map (·.value)) (cs.map (·.size)) num).2.filterMap (cs[·]?)
    ((results.map (·.value)).sum, extradata ++ results.filterMap (info.serverpxxs[·.item]?),
      { info with serverpxxs := eraseItems info.serverpxxs (results.map (·.item)) })

/-! ### The par files of a path -/

/-- A call on `σ`, with the files that it adds to the queue and the outside world. -/
structure ParCall (σ W : Type) where
  info : σ
  added : List NntpFileRetr := []
  world : W

section
variable {ν : Type} (check : Text → List Text → W → Except Text (Int × ν) × W)
  (get : Int → ν → Text → ParXInfo → Int × List NntpFile × ParXInfo)

/-- The body of the loop over the sets, with the count of what was added. `check` says how many files or packets are
    needed, and `get` gets them. -/
def checkSet (key : Text) (names : List Text) (total : Int) (st : ParCall ParXInfo W) :
    Except ParStop Int × ParCall ParXInfo W :=
  if key ∈ st.info.finishedParsets then (.ok total, st)
  else
    match check st.info.path names st.world with
    | (.error e, world) => (.error (.thrown e), { st with world })
    | (.ok (needed, found), world) =>
      let finished := key :: st.info.finishedParsets
      if needed = 0 then
        (.ok total, { st with
          info := { st.info with finishedParsets := finished, finishedOkcount := st.info.finishedOkcount + 1 }
          world := par.setAutoparOkStatus world })
      else if (st.info.localpars.basenames key).isEmpty then (.error .subjmatches, { st with world })
      else
        let (parsetAdded, files, info) := get needed found key st.info
        let st : ParCall ParXInfo W := ⟨info, st.added ++ files.map info.retr, world⟩
        if parsetAdded = 0 then
          (.ok total, { st with info := { info with finishedParsets := finished }, world := par.setAutoparErrorStatus world })
        else (.ok (total + parsetAdded), st)

def checkSets : List (Text × List Text) → Int → ParCall ParXInfo W → Except ParStop Int × ParCall ParXInfo W
  | [], total, st => (.ok total, st)
  | (key, names) :: sets, total, st =>
    match checkSet par check get key names total st with
    | (.error stop, st) => (.error stop, st)
    | (.ok total, st) => checkSets sets total st

/-- What the two `maybe_get_pxxs`s share. -/
def maybeGetPxxs (addfrompath : Text → W → Except Text LocalParFiles × W)
    (maybeAddParfile : ParXInfo → NntpFile → Bool → Option ParXInfo) (st : ParCall ParXInfo W) :
    Except ParStop Int × ParCall ParXInfo W :=
  match addfrompath st.info.path st.world with
  | (.error e, world) => (.error (.thrown e), { st with info := { st.info with localpars := {} }, world })
  | (.ok localpars, world) =>
    let (unclaimedfiles, info) := { st.info with localpars }.releaseUnclaimedPxxs
    match unclaimedfiles.foldlM (fun info f => maybeAddParfile info f true) info with
    | none => (.error .readd, { st with info, world })
    | some info =>
      let (files, info) := info.getInitialPars par
      match checkSets par check get info.localpars.basefilenames.entries files.length
          ⟨info, st.added ++ files.map info.retr, world⟩ with
      | (.error stop, st) => (.error stop, st)
      | (.ok total, st) =>
        (.ok total, if total = 0 then { st with world := st.info.localpars.checkBadbasenames par st.world } else st)

end

/-- The loop over the files of a set: the last good one, and the volumes that are good. -/
def checkPar1Files (path : Text) : List Text → Text → List UInt32 → W → (Text × List UInt32) × W
  | [], goodpar, goodvols, w => ((goodpar, goodvols), w)
  | name :: names, goodpar, goodvols, w =>
    let fn := pathJoin path name
    match par.parfileOk fn w with
    | (some volnumber, w) =>
      checkPar1Files path names fn (if 0 < volnumber then goodvols.insert volnumber else goodvols) w
    | (none, w) => checkPar1Files path names goodpar goodvols w

/-- How many files of a set are needed, and the volumes that are good. -/
def par1Check (path : Text) (names : List Text) (w : W) : Except Text (Int × List UInt32) × W :=
  let ((goodpar, goodvols), w) := checkPar1Files par path names [] [] w
  if goodpar.isEmpty then (.ok (1, goodvols), w)
  else
    match par.parfileCheck goodpar path w with
    | (.error e, w) => (.error e, w)
    | (.ok bad, w) => (.ok (max 0 (bad - goodvols.length), goodvols), w)

/-- `Par1Info::maybe_get_pxxs`. -/
def par1MaybeGetPxxs : ParCall ParXInfo W → Except ParStop Int × ParCall ParXInfo W :=
  maybeGetPxxs par (par1Check par) (getPxxs par) (LocalParFiles.addfrompathPar1 par) (par1MaybeAddParfile par)

/-- The loop over the files of a set: the repairer of the first one that it can go on with, or of the last one. -/
def processFirst (fullpaths : List Text) : List Text → Par2Repairer → W → Except Text Par2Repairer × W
  | [], par2, w => (.ok par2, w)
  | fn :: fns, _, w =>
    match par.par2Process fn fullpaths w with
    | (.error e, w) => (.error e, w)
    | (.ok par2, w) => if par2.good then (.ok par2, w) else processFirst fullpaths fns par2 w

/-- How many packets of a set are needed, with the packets that are good and the repairer. -/
def par2Check (path : Text) (names : List Text) (w : W) : Except Text (Int × List UInt32 × Par2Repairer) × W :=
  match processFirst par (names.map (pathJoin path)) (names.map (pathJoin path)) {} w with
  | (.error e, w) => (.error e, w)
  | (.ok par2, w) =>
    if par2.good then
      let needed : Int := if par2.repairNotPossible then par2.missingblockcount.toNat - par2.recoverypackets.length else 0
      (.ok (needed, par2.recoverypackets, par2), w)
    else (.ok (1, [], par2), w)

/-- `Par2Info::maybe_get_pxxs`. -/
def par2MaybeGetPxxs : ParCall ParXInfo W → Except ParStop Int × ParCall ParXInfo W :=
  maybeGetPxxs par (par2Check par) (fun num found key info => getRecoverypackets par num found.1 key found.2 info)
    (LocalParFiles.addfrompathPar2 par) (par2MaybeAddParfile par)

structure ParInfo where
  par1info : ParXInfo
  par2info : ParXInfo

namespace ParInfo

def maybeAddParfile (p : ParInfo) (f : NntpFile) (wantIncomplete : Bool) : Option ParInfo :=
  match par1MaybeAddParfile par p.par1info f wantIncomplete with
  | some par1info => some { p with par1info }
  | none => (par2MaybeAddParfile par p.par2info f wantIncomplete).map fun par2info => { p with par2info }

/-- The files added, and what is left. -/
def getInitialPars (p : ParInfo) : List NntpFileRetr × ParInfo :=
  let (files1, par1info) := p.par1info.getInitialPars par
  let (files2, par2info) := p.par2info.getInitialPars par
  (files1.map par1info.retr ++ files2.map par2info.retr, ⟨par1info, par2info⟩)

def maybeGetPxxs (st : ParCall ParInfo W) : Option ParStop × ParCall ParInfo W :=
  match par1MaybeGetPxxs par ⟨st.info.par1info, st.added, st.world⟩ with
  | (.error stop, st1) => (some stop, ⟨{ st.info with par1info := st1.info }, st1.added, st1.world⟩)
  | (.ok _, st1) =>
    match par2MaybeGetPxxs par ⟨st.info.par2info, st1.added, st1.world⟩ with
    | (.error stop, st2) => (some stop, ⟨⟨st1.info, st2.info⟩, st2.added, st2.world⟩)
    | (.ok _, st2) => (none, ⟨⟨st1.info, st2.info⟩, st2.added, st2.world⟩)

end ParInfo

/-! ### The par handler -/

structure ParHandler where
  parinfos : SortedMap Text ParInfo := ∅

namespace ParHandler

/-- `new ParInfo(path, temppath)`. -/
def newParInfo (path temppath : Text) (w : W) : Except Text ParInfo × W :=
  match LocalParFiles.addfrompathPar1 par path w with
  | (.error e, w) => (.error e, w)
  | (.ok localpars1, w) =>
    match LocalParFiles.addfrompathPar2 par path w with
    | (.error e, w) => (.error e, w)
    | (.ok localpars2, w) => (.ok ⟨{ path, temppath, localpars := localpars1 }, { path, temppath, localpars := localpars2 }⟩, w)

/-- `parinfo(path, temppath)`. -/
def parinfo (h : ParHandler) (path temppath : Text) (w : W) : Except Text ParInfo × W :=
  match h.parinfos.find? path with
  | some e => (.ok e.2, w)
  | none => newParInfo par path temppath w

def setParinfo (h : ParHandler) (path : Text) (p : ParInfo) : ParHandler := ⟨h.parinfos.assign path p⟩

def maybeAddParfile (f : NntpFile) (path temppath : Text) (wantIncomplete : Bool) (st : ParCall ParHandler W) :
    Except ParStop Bool × ParCall ParHandler W :=
  match st.info.parinfo par path temppath st.world with
  | (.error e, world) => (.error (.thrown e), { st with world })
  | (.ok p, world) =>
    match p.maybeAddParfile par f wantIncomplete with
    | some p => (.ok true, { st with info := st.info.setParinfo path p, world })
    | none => (.ok false, { st with info := st.info.setParinfo path p, world })

/-- `maybe_get_pxxs` of what is known of a path. -/
def runParInfo (path : Text) (p : ParInfo) (st : ParCall ParHandler W) : Option ParStop × ParCall ParHandler W :=
  let (stop, st') := ParInfo.maybeGetPxxs par ⟨p, st.added, st.world⟩
  (stop, ⟨st.info.setParinfo path st'.info, st'.added, st'.world⟩)

/-- The loop of `get_initial_pars`. -/
def getInitialParsLoop (pathsInFc : List Text) : List (Text × ParInfo) → ParCall ParHandler W →
    Option ParStop × ParCall ParHandler W
  | [], st => (none, st)
  | (path, p) :: ps, st =>
    if path ∈ pathsInFc then
      let (files, p) := p.getInitialPars par
      getInitialParsLoop pathsInFc ps { st with info := st.info.setParinfo path p, added := st.added ++ files }
    else
      match runParInfo par path p st with
      | (some stop, st) => (some stop, st)
      | (none, st) => getInitialParsLoop pathsInFc ps st

def getInitialPars (fc : NntpFilesU) (st : ParCall ParHandler W) : Option ParStop × ParCall ParHandler W :=
  getInitialParsLoop par (fc.files.map (·.path)) st.info.parinfos.entries st

/-- `maybe_get_pxxs`, with the assertion of `parinfo(path)`. -/
def maybeGetPxxs (path : Text) (st : ParCall ParHandler W) : Option ParStop × ParCall ParHandler W :=
  match st.info.parinfos.find? path with
  | none => (some .parinfo, st)
  | some e => runParInfo par path e.2 st

end ParHandler

/-! ### A retrieval with a par handler -/

/-- `c_nntp_files_u::addfile`. -/
def NntpFilesU.addfile (fc : NntpFilesU) (fr : NntpFileRetr) : NntpFilesU :=
  ⟨fc.bytes + fr.file.sumParts par.bytes, SortedList.insertUpper (fun a b => a.file.badate < b.file.badate) fr fc.files⟩

/-- The outside world of a retrieval with its par handler, the files that the handler has handed to the queue, and the
    assertion of the handler that failed. -/
structure ParWorld (W : Type) where
  world : W
  handler : ParHandler := {}
  handed : List NntpFileRetr := []
  asserted : Option ParStop := none

namespace ParWorld

/-- A call on the handler that is given the queue. -/
def call (f : ParCall ParHandler W → Option ParStop × ParCall ParHandler W) (fc : NntpFilesU) (pw : ParWorld W) :
    Except Text NntpFilesU × ParWorld W :=
  let (stop, st) := f ⟨pw.handler, [], pw.world⟩
  let pw := { pw with world := st.world, handler := st.info, handed := pw.handed ++ st.added }
  match stop with
  | none => (.ok (st.added.foldl (NntpFilesU.addfile par) fc), pw)
  | some (.thrown e) => (.error e, pw)
  | some stop => (.error [], { pw with asserted := some stop })

/-- What a call on the outside world does beside the handler. -/
def lift {α : Type} (r : α × W) (pw : ParWorld W) : α × ParWorld W := (r.1, { pw with world := r.2 })

end ParWorld

/-- The outside of a retrieval, with the par handler of this module in place of its own. -/
def Outside.withPar (out : Outside W) : Outside (ParWorld W) where
  fexists fn pw := out.fexists fn pw.world
  time pw := out.time pw.world
  doarticle p fn pw := pw.lift (out.doarticle p fn pw.world)
  dowriteliteArticle p fn pw := pw.lift (out.dowriteliteArticle p fn pw.world)
  uulib fr fnbuf pw := pw.lift (out.uulib fr fnbuf pw.world)
  saveText fr pw := pw.lift (out.saveText fr pw.world)
  unlink fn pw := { pw with world := out.unlink fn pw.world }
  dupeMatch := out.dupeMatch
  getInitialPars fc pw := pw.call par (ParHandler.getInitialPars par fc) fc
  maybeGetPxxs path fc pw := pw.call par (ParHandler.maybeGetPxxs par path) fc
  bytes := par.bytes
  checksum := out.checksum

end
end Nget

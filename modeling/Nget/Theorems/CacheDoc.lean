import Nget.Theorems.ReadFile

/-! A whole cache text: the line with the version and the total, the servers' lines up to the dot, the records.
    `load_spec` gives the loading constructor as a function of these, without the reader. -/

namespace Nget
open CString
namespace CacheReader

/-- The total and the version of the sorting that the first line gives, when it is one. -/
def docHeader (line : Text) : Option (UInt64 × Int32) :=
  (toks 2 line).bind fun t =>
    if t.getD 0 [] = cacheVersion then
      let subvercp := (t.getD 1 []).dropWhile (· ≠ ' ')
      some (atoul (t.getD 1 []), if subvercp.isEmpty then -1 else atoi subvercp)
    else none

def lineServerInfo (t : List Text) : NntpServerInfo :=
  ⟨atoul (t.getD 0 []), atoul (t.getD 1 []), atoul (t.getD 2 []), atoul (t.getD 3 [])⟩

/-- The servers' infos up to the dot, and the lines behind the dot, if it is there. -/
def docServers : List Text → List NntpServerInfo × Option (List Text)
  | [] => ([], none)
  | line :: lines =>
    if line.head? = some '.' then ([], some lines)
    else (((toks 4 line).map lineServerInfo).toList ++ (docServers lines).1, (docServers lines).2)

/-- What a cache text says; it has no body when it ends before the dot behind the servers. -/
structure CacheDoc where
  totalnum : UInt64
  sortver : Int32
  servers : List NntpServerInfo
  body : Option (DocPos × List Record)
deriving DecidableEq

/-- What the lines of a text say, if the first of them is as it should be. -/
def cacheDoc (group : Text) : List Text → Option CacheDoc
  | [] => none
  | line :: lines => (docHeader line).map fun h =>
    ⟨h.1, h.2, (docServers lines).1, (docServers lines).2.map (docRun group .file)⟩

/-- The infos of the configured servers; the first of a server counts. -/
def addServers (hasserver : UInt64 → Bool) (servers : List NntpServerInfo) (m : SortedMap UInt64 NntpServerInfo) :
    SortedMap UInt64 NntpServerInfo :=
  (servers.filter fun si => hasserver si.serverid).foldl (fun m si => m.insertNew si.serverid si) m

section
variable {hasserver : UInt64 → Bool} {now : Int64} {f : Text} {midinfo : MetaMidInfo} {group : Text}

theorem addServers_cons {si : NntpServerInfo} {servers : List NntpServerInfo} {m : SortedMap UInt64 NntpServerInfo} :
    addServers hasserver (si :: servers) m =
      addServers hasserver servers (if hasserver si.serverid then m.insertNew si.serverid si else m) := by
  unfold addServers
  by_cases hserver : hasserver si.serverid = true
  · rw [List.filter_cons_of_pos (by exact hserver), if_pos hserver, List.foldl_cons]
  · rw [List.filter_cons_of_neg (by exact hserver), if_neg hserver]

theorem serverInfoLoop_spec : ∀ (fuel : Nat) (r : CacheReader) (m : SortedMap UInt64 NntpServerInfo), r.f.length ≤ fuel →
    ∃ thrown r', serverInfoLoop hasserver fuel r m = (thrown, r', addServers hasserver (docServers (bufLines r.f)).1 m) ∧
      (docServers (bufLines r.f)).2 = (if thrown.isNone then some (bufLines r'.f) else none) ∧ r'.count = r.count ∧
      r.SameText r'
  | 0, r, m, hfuel => by
    have hf : r.f = [] := List.length_eq_zero_iff.mp (Nat.le_zero.mp hfuel)
    rw [hf]
    exact ⟨_, _, rfl, rfl, rfl, ⟨rfl, rfl, rfl⟩⟩
  | fuel + 1, r, m, hfuel => by
    unfold serverInfoLoop
    split
    · next hend =>
      rw [List.isEmpty_iff.mp hend]
      exact ⟨_, _, rfl, rfl, rfl, ⟨rfl, rfl, rfl⟩⟩
    · next hline =>
      have hf : r.f ≠ [] := fun h => hline (List.isEmpty_iff.mpr h)
      have hlen := length_afterLine hf
      rw [bufLines_eq hf, docServers]
      simp only [head?_firstLine_eq_dot]
      split
      · exact ⟨none, _, rfl, by simp [endMark_f], endMark_count, .endMark ⟨rfl, rfl, rfl⟩⟩
      · have hnext : ∀ (r'' : CacheReader) (m : SortedMap UInt64 NntpServerInfo), r''.f = afterLine r.f → r''.count = r.count →
            r.SameText r'' → ∃ thrown r', serverInfoLoop hasserver fuel r'' m =
              (thrown, r', addServers hasserver (docServers (bufLines (afterLine r.f))).1 m) ∧
            (docServers (bufLines (afterLine r.f))).2 = (if thrown.isNone then some (bufLines r'.f) else none) ∧
            r'.count = r.count ∧ r.SameText r' := by
          intro r'' m hrest hcount hsame
          obtain ⟨thrown, r', hloop, hbody, hcount', hsame'⟩ := serverInfoLoop_spec fuel r'' m (by rw [hrest]; omega)
          rw [hrest] at hloop hbody
          exact ⟨thrown, r', hloop, hbody, hcount'.trans hcount, hsame.trans hsame'⟩
        obtain ⟨hrest, ⟨hnum, htoks⟩ | ⟨hnum, htoks⟩⟩ := @btoks_toks r.f 4 (by decide)
        · rw [htoks]
          dsimp only
          rw [if_pos hnum, hrest]
          generalize (btoks '\t' 4 true r.f).2.1 = t
          rw [Option.map_some, Option.toList_some, List.singleton_append, addServers_cons]
          by_cases hserver : hasserver (atoul (t.getD 0 [])) = true
          · rw [if_pos hserver, if_pos (show hasserver (lineServerInfo t).serverid = true from hserver)]
            exact hnext _ _ rfl rfl ⟨rfl, rfl, rfl⟩
          · rw [if_neg hserver, if_neg (show ¬hasserver (lineServerInfo t).serverid = true from hserver)]
            exact hnext _ _ rfl rfl ⟨rfl, rfl, rfl⟩
        · rw [htoks]
          dsimp only
          rw [if_neg hnum, hrest]
          exact hnext _ _ rfl rfl ⟨rfl, rfl, rfl⟩

/-- What the reader's constructor makes of a text: the servers' infos and, when it does not throw, a reader
    in front of the records. -/
def StartSpec (hasserver : UInt64 → Bool) (group : Text)
    (out : Option Text × CacheReader × SortedMap UInt64 NntpServerInfo) : Option CacheDoc → Prop
  | none => out.1.isSome ∧ out.2.2 = ∅
  | some d => out.2.2 = addServers hasserver d.servers ∅ ∧
      d.body = (if out.1.isNone then some (docRun group .file (bufLines out.2.1.f)) else none) ∧
      out.2.1.count = 0 ∧ out.2.1.group = group ∧ out.2.1.totalnum = d.totalnum ∧ out.2.1.cacheSortver = d.sortver

theorem start_spec : StartSpec hasserver group (start hasserver f midinfo ∅ group) (cacheDoc group (bufLines f)) := by
  unfold start
  dsimp only
  split
  · next hend =>
    rw [List.isEmpty_iff.mp hend]
    exact ⟨rfl, rfl⟩
  · next hline =>
    have hf : f ≠ [] := fun h => hline (List.isEmpty_iff.mpr h)
    rw [bufLines_eq hf, cacheDoc, docHeader]
    obtain ⟨hrest, ⟨hnum, htoks⟩ | ⟨hnum, htoks⟩⟩ := @btoks_toks f 2 (by decide)
    · rw [htoks, hrest]
      generalize (btoks '\t' 2 true f).2.1 = t
      by_cases hversion : t.getD 0 [] = cacheVersion
      · rw [if_pos (by simpa using ⟨hnum, hversion⟩), Option.bind_some, if_pos hversion, Option.map_some]
        obtain ⟨thrown, r', hloop, hbody, hcount, hsame⟩ := @serverInfoLoop_spec hasserver (afterLine f).length
          { f := afterLine f, midinfo, group, curline := 0 + 1, totalnum := atoul (t.getD 1 []),
            cacheSortver := if ((t.getD 1 []).dropWhile (· ≠ ' ')).isEmpty then -1
              else atoi ((t.getD 1 []).dropWhile (· ≠ ' ')) } ∅ le_rfl
        dsimp only at hloop hbody hcount ⊢
        rw [hloop]
        refine ⟨rfl, ?_, hcount, hsame.group, hsame.totalnum, hsame.cacheSortver⟩
        rw [hbody]
        cases thrown <;> rfl
      · rw [if_neg fun h => hversion (of_decide_eq_true (Bool.and_eq_true_iff.mp h).2), Option.bind_some, if_neg hversion]
        dsimp only [Option.map_none]
        split <;> exact ⟨rfl, rfl⟩
    · rw [htoks, if_neg (by simp [hnum])]
      dsimp only [Option.bind_none, Option.map_none]
      split <;> exact ⟨rfl, rfl⟩

/-! ### All files of a text -/

/-- The reader's constructor and its files: the reader in the end, the files, and what was thrown. -/
def readCache (hasserver : UInt64 → Bool) (now : Int64) (f : Text) (midinfo : MetaMidInfo) (group : Text) :
    CacheReader × List NntpFile × Option Text :=
  match start hasserver f midinfo ∅ group with
  | (some e, r, _) => (r, [], some e)
  | (none, r, _) => readFiles hasserver now r.f.length r

/-- The records of a text; none when it ends in the servers' lines. -/
def CacheDoc.records (d : CacheDoc) : List Record := (d.body.map (·.2)).getD []

/-- The text ends behind a record, or behind the dot of the servers' lines. -/
def CacheDoc.complete (d : CacheDoc) : Bool := (d.body.map fun b => b.1.isFile).getD false

theorem CacheDoc.of_body {d : CacheDoc} {b : Bool} {run : DocPos × List Record} (h : d.body = if b then some run else none) :
    d.records = (if b then run.2 else []) ∧ d.complete = (b && run.1.isFile) := by
  unfold CacheDoc.records CacheDoc.complete
  cases b <;> simp [h]

/-- What reading a text comes to. -/
def ReadSpec (hasserver : UInt64 → Bool) (out : CacheReader × List NntpFile × Option Text) : Option CacheDoc → Prop
  | none => out.2.1 = [] ∧ out.2.2.isSome
  | some d => out.2.1 = keptFiles hasserver d.records ∧ (out.2.2 = none ↔ d.complete = true) ∧
      (out.2.2 = none → out.1.count = UInt64.ofNat (NntpCache.numParts out.2.1) ∧ out.1.totalnum = d.totalnum)

theorem readCache_spec : ReadSpec hasserver (readCache hasserver now f midinfo group) (cacheDoc group (bufLines f)) := by
  have hstart := @start_spec hasserver f midinfo group
  unfold readCache
  generalize start hasserver f midinfo ∅ group = out at *
  generalize cacheDoc group (bufLines f) = doc at *
  obtain ⟨thrown, r, m⟩ := out
  cases doc with
  | none =>
    obtain ⟨e, rfl⟩ := Option.isSome_iff_exists.mp hstart.1
    exact ⟨rfl, rfl⟩
  | some d =>
    obtain ⟨-, hbody, hcount, hgroup, htotal, -⟩ := hstart
    dsimp only at hbody hcount hgroup htotal
    obtain ⟨hrecords, hcomplete⟩ := CacheDoc.of_body hbody
    dsimp only [ReadSpec]
    rw [hrecords, hcomplete]
    cases thrown with
    | some e => exact ⟨rfl, by simp, by simp⟩
    | none =>
      obtain ⟨hfiles, hthrown, hparts, hsame⟩ := @readFiles_spec hasserver now r.f.length r le_rfl
      rw [hgroup] at hfiles hthrown
      refine ⟨hfiles, hthrown.trans DocPos.isFile_iff.symm, fun hnone => ⟨?_, hsame.totalnum.trans htotal⟩⟩
      dsimp only at hnone ⊢
      rw [hparts hnone, hcount, zero_add]

end
end CacheReader

namespace NntpCache
open CacheReader
variable {hasserver : UInt64 → Bool} {now : Int64} {f : Text} {midinfo : MetaMidInfo} {group : Text}

theorem checkCounts_totalnum {r : CacheReader} : r.checkCounts.totalnum = r.count := by
  unfold CacheReader.checkCounts
  dsimp only
  split <;> split
  · rfl
  · next h => exact (not_not.mp h).symm
  · rfl
  · next h => exact (not_not.mp h).symm

/-- The cache that the loading constructor makes of what a text says. -/
def ofDoc (hasserver : UInt64 → Bool) (group : Text) : Option CacheDoc → NntpCache
  | none => { group, fileread := 0 }
  | some d =>
    { group
      serverInfo := addServers hasserver d.servers ∅
      files := (keptFiles hasserver d.records).foldl insertFile []
      fileread := if d.complete then 1 else 0
      saveit := d.complete && d.sortver ≠ Nget.cacheSortver
      totalnum := if d.complete then UInt64.ofNat (numParts (keptFiles hasserver d.records)) else 0 }

theorem load_spec : (load hasserver now group midinfo (some f)).1 = ofDoc hasserver group (cacheDoc group (bufLines f)) := by
  have hstart := @start_spec hasserver f midinfo group
  unfold load
  dsimp only
  generalize CacheReader.start hasserver f midinfo ∅ group = out at *
  generalize cacheDoc group (bufLines f) = doc at *
  obtain ⟨thrown, r, m⟩ := out
  cases doc with
  | none =>
    obtain ⟨e, rfl⟩ := Option.isSome_iff_exists.mp hstart.1
    obtain rfl : m = ∅ := hstart.2
    rfl
  | some d =>
    obtain ⟨hservers, hbody, hcount, hgroup, -, hsortver⟩ := hstart
    dsimp only at hservers hbody hcount hgroup hsortver
    subst hservers
    obtain ⟨hrecords, hcomplete⟩ := CacheDoc.of_body hbody
    cases thrown with
    | some e =>
      simp only [ofDoc, hrecords, hcomplete, Option.isNone_some, Bool.false_and, Bool.false_eq_true, if_false]
      rfl
    | none =>
      obtain ⟨hfiles, hthrown, hparts, hsame⟩ := @readFiles_spec hasserver now r.f.length r le_rfl
      rw [hgroup] at hfiles hthrown
      rw [hcount, zero_add] at hparts
      have hver := hsame.cacheSortver
      simp only [ofDoc, hrecords, hcomplete, Option.isNone_none, Bool.true_and, if_true, ← hfiles]
      generalize readFiles hasserver now r.f.length r = out at *
      obtain ⟨r', files, e⟩ := out
      dsimp only at hfiles hthrown hparts hver ⊢
      cases e with
      | none =>
        have hfile := DocPos.isFile_iff.mpr (hthrown.mp rfl)
        simp only [hfile, if_true, Bool.true_and, checkCounts_totalnum, hparts rfl, hver, hsortver]
      | some e =>
        have hfile : (docRun group .file (bufLines r.f)).1.isFile = false := by
          rw [← Bool.not_eq_true, DocPos.isFile_iff, ← hthrown]
          simp
        simp only [hfile, Bool.false_eq_true, if_false, Bool.false_and]

end NntpCache
end Nget

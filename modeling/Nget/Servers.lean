import Nget.NntpFile
import Nget.Lib.Retry
import Nget.Lib.SortedList

/-! The servers that are asked, in what order and how often (`prot_nntp.cc`, `server.h`). Priorities are rational numbers in
    place of `float`s, and positive. -/

namespace Nget

abbrev Prio := {q : ℚ // 0 < q}

/-- `c_server_priority_grouping`. A server is what the maps are ordered by. -/
structure ServerPriorityGrouping (σ : Type) where
  defglevel : Prio := ⟨1, by norm_num⟩
  deflevel : Prio := ⟨1, by norm_num⟩
  priorities : List (σ × Prio) := []

/-- What `nconfig` has of servers, each of them an object of its own, and of groupings, of which `default` is always there. -/
structure ServerConfig (σ : Type) where
  serv : List (UInt64 × σ)
  curservmult : Prio := ⟨2, by norm_num⟩
  prioritygroupings : List (Text × ServerPriorityGrouping σ) := []
  defaultGrouping : ServerPriorityGrouping σ := {}
  distinct : (serv.map (·.2)).Nodup

/-- What is read when the servers are put in order: the configuration, the host that is forced, the servers that the pool
    has connections to, and the grouping of a group. -/
structure ServerChoice (σ : Type) where
  nconfig : ServerConfig σ
  forceHost : Option σ := none
  isConnected : σ → Bool
  priogrouping : Text → ServerPriorityGrouping σ

/-- `t_real_server_article`: an article at its place among those of the part, which stands for the pointer to it, and a
    server. -/
structure RealServerArticle (σ : Type) where
  sa : NntpServerArticle
  place : Nat
  server : σ
deriving DecidableEq

/-- `t_nntp_server_articles_prioritized`, in the order of the map. -/
abbrev Prioritized (σ : Type) := List (Prio × RealServerArticle σ)

section
variable {σ : Type} [DecidableEq σ]

def ServerPriorityGrouping.getserverpriority (g : ServerPriorityGrouping σ) (server : σ) : Prio :=
  match g.priorities.find? (·.1 = server) with
  | some spg => spg.2
  | none => g.deflevel

omit [DecidableEq σ] in
def ServerConfig.getservers (cfg : ServerConfig σ) (serverid : UInt64) : List σ :=
  (cfg.serv.filter (·.1 = serverid)).map (·.2)

omit [DecidableEq σ] in
def ServerConfig.getpriogrouping (cfg : ServerConfig σ) (groupname : Text) : Option (ServerPriorityGrouping σ) :=
  (cfg.prioritygroupings.find? (·.1 = groupname)).map (·.2)

namespace Prioritized

omit [DecidableEq σ] in
/-- `insert`: behind the elements of the same key. The map has the greatest key first. -/
def insert (e : Prio × RealServerArticle σ) (sap : Prioritized σ) : Prioritized σ :=
  SortedList.insertUpper (fun e a => a.1 < e.1) e sap

omit [DecidableEq σ] in
/-- The key that an iterator to the element at `place` reads. Where there is no element `beyond` is what stands there. -/
def key (beyond : ℚ) (place : Int) (sap : Prioritized σ) : ℚ × Bool :=
  match place with
  | .ofNat i =>
    match sap[i]? with
    | some e => (e.1, true)
    | none => (beyond, false)
  | .negSucc _ => (beyond, false)

omit [DecidableEq σ] in
def equalRange (prio : ℚ) (sap : Prioritized σ) : Prioritized σ := sap.filter (·.1.val = prio)

def erase (e : Prio × RealServerArticle σ) (sap : Prioritized σ) : Prioritized σ := sap.eraseP (·.2 = e.2)

end Prioritized

namespace ServerChoice
variable (st : ServerChoice σ)

/-- The priority that a server is put in the map with. -/
def prio (docurservmult : Bool) (sa : NntpServerArticle) (s : σ) : Prio :=
  let prio := (st.priogrouping sa.group).getserverpriority s
  if docurservmult && st.isConnected s then prio * st.nconfig.curservmult else prio

/-- The loop over the servers of an article. -/
def prioritizeServers (docurservmult : Bool) (sa : NntpServerArticle) (place : Nat) : List σ → Prioritized σ → Prioritized σ
  | [], sap => sap
  | s :: servers, sap =>
    if st.forceHost.any (· ≠ s) then prioritizeServers docurservmult sa place servers sap
    else prioritizeServers docurservmult sa place servers (sap.insert (st.prio docurservmult sa s, ⟨sa, place, s⟩))

/-- The loop over the articles. -/
def prioritizeArticles (docurservmult : Bool) : List (NntpServerArticle × Nat) → Prioritized σ → Prioritized σ
  | [], sap => sap
  | (sa, place) :: articles, sap =>
    prioritizeArticles docurservmult articles
      (st.prioritizeServers docurservmult sa place (st.nconfig.getservers sa.serverid) sap)

/-- What the priority of a connected server is multiplied with. -/
def aBitHigher : Prio := ⟨1001 / 1000, by norm_num⟩

/-- The loop that puts the connected servers of a range back a bit higher. What was put back is above the range. -/
def reprioritize : Prioritized σ → Prioritized σ → Prioritized σ
  | [], sap => sap
  | ci :: range, sap =>
    if st.isConnected ci.2.server then
      reprioritize range ((sap.erase ci).insert (ci.1 * aBitHigher, ci.2))
    else reprioritize range sap

/-- What is done about the servers of one priority. -/
def separate (prio : ℚ) (sap : Prioritized σ) : Prioritized σ :=
  let firstrange := sap.equalRange prio
  if firstrange.any (st.isConnected ·.2.server) && firstrange.any (!st.isConnected ·.2.server) then
    st.reprioritize firstrange sap
  else sap

/-- `nntp_doarticle_prioritize`, and whether it read elements of the map only. -/
def nntpDoarticlePrioritize (part : NntpPart) (docurservmult : Bool) (beyond : ℚ) : Prioritized σ × Bool :=
  let sap := st.prioritizeArticles docurservmult part.articles.zipIdx []
  if docurservmult && !sap.isEmpty then
    -- A reverse iterator is to the element in front of its base, and the base of `rend()` is `begin()`.
    let (prio, inside) := sap.key beyond (0 - 1)
    (st.separate prio sap, inside)
  else (sap, true)

/-- `nntp_simple_prioritize`. -/
def nntpSimplePrioritize (priogroup : ServerPriorityGrouping σ) : List σ :=
  match st.forceHost with
  | some host => [host]
  | none =>
    (st.nconfig.serv.map (·.2)).foldl (fun doservers s =>
      if priogroup.defglevel ≤ priogroup.getserverpriority s then
        if st.isConnected s then s :: doservers else doservers ++ [s]
      else doservers) []

end ServerChoice
end
end Nget

import Nget.Servers

/-! The loops over the servers (`prot_nntp.cc`): `nntp_doarticle` gets an article from one of them, `nntp_group` and its like
    ask all of them. -/

namespace Nget
open Retry

/-- How an attempt ends: well, with a `baseCommEx`, or with an exception of another kind, which nothing catches. -/
inductive Attempt where
  | done
  | commEx (fatal : Bool)
  | thrown
deriving DecidableEq

/-- What the parts of an attempt come to in the world that they are made in. -/
structure ServerSession (σ W : Type) where
  /-- The constructor of `ConnectionHolder`. -/
  connect : σ → W → Attempt × W
  release : W → W
  doopen : W → Attempt × W
  /-- `nntp_dogroup` that selects the group. -/
  dogroup : Text → W → Attempt × W
  /-- `ARTICLE` and the reply to it. -/
  article : UInt64 → W → Attempt × W
  dogetarticle : NntpServerArticle → W → Attempt × W
  /-- The lines can be written to the temp file. -/
  writeTemp : W → Bool × W
  /-- `nntp_dogroup` that gets the headers as well. -/
  dogroupHeaders : Text → W → Attempt × W
  doxpat : Text → W → Attempt × W
  doxover : W → Attempt × W
  dogrouplist : Option Text → W → Attempt × W
  dogroupdescriptions : Option Text → W → Attempt × W

section
variable {σ W : Type} (out : ServerSession σ W)

/-- Parts of an attempt up to the first that does not end well. -/
def inTurn : List (W → Attempt × W) → W → Attempt × W
  | [], w => (.done, w)
  | part :: parts, w =>
    match part w with
    | (.done, w) => inTurn parts w
    | r => r

/-- What is done while a `ConnectionHolder` holds a connection to the server. -/
def ServerSession.hold (s : σ) (parts : List (W → Attempt × W)) (w : W) : Attempt × W :=
  match out.connect s w with
  | (.done, w) =>
    let (o, w) := inTurn parts w
    (o, out.release w)
  | r => r

/-! ### `nntp_doarticle` -/

/-- An attempt to get the article and to write it to the temp file. A `FileEx` of the write is thrown on. -/
def ServerSession.getArticle (c : RealServerArticle σ) (w : W) : Attempt × W :=
  match out.hold c.server [out.doopen, out.dogroup c.sa.group, out.article c.sa.articlenum, out.dogetarticle c.sa] w with
  | (.done, w) =>
    let (written, w) := out.writeTemp w
    (if written then .done else .thrown, w)
  | r => r

/-- The loop returns on success, and erases the element on a fatal error. -/
def articleVerdict : Attempt → Verdict
  | .done => .stop
  | .commEx false => .keep
  | .commEx true => .drop
  | .thrown => .stop

/-- What a run of `nntp_doarticle` returns, if it does, the attempts that it made, and what it adds to the counts of the
    status. -/
structure DoarticleRun (σ W : Type) where
  ret : Option Int32
  tries : List (Try ((Prio × RealServerArticle σ) × Nat) Attempt)
  retrieveWarn : Int32 := 0
  retrieveError : Int32 := 0
  world : W

/-- What `nntp_doarticle` does with the map of candidates. The places in the map stand for the iterators. -/
def ServerSession.doarticleLoop (maxretry : Nat) (sap : Prioritized σ) (w : W) : DoarticleRun σ W :=
  let r := rounds (fun sapi => out.getArticle sapi.1.2) articleVerdict maxretry 0 sap.zipIdx w
  if r.stopped then
    if r.tries.any (·.outcome = .done) then
      { ret := some 0, tries := r.tries, retrieveWarn := Int32.ofNat (sap.length - r.left.length), world := r.world }
    else { ret := none, tries := r.tries, world := r.world }
  else { ret := some (-1), tries := r.tries, retrieveError := 1, world := r.world }

def ServerSession.nntpDoarticle [DecidableEq σ] (st : ServerChoice σ) (beyond : ℚ) (maxretry : Nat) (part : NntpPart) (w : W) :
    DoarticleRun σ W :=
  out.doarticleLoop maxretry (st.nntpDoarticlePrioritize part true beyond).1 w

/-! ### `nntp_group` and its like -/

/-- The loop erases a server from its list unless there was an error that is not fatal. -/
def updateVerdict : Attempt → Verdict
  | .done => .drop
  | .commEx false => .keep
  | .commEx true => .drop
  | .thrown => .stop

/-- An attempt that is counted if it succeeds. -/
def counted (attempt : σ → W → Attempt × W) (s : σ) (st : W × Nat) : Attempt × (W × Nat) :=
  match attempt s st.1 with
  | (.done, w) => (.done, w, st.2 + 1)
  | (o, w) => (o, w, st.2)

/-- What a loop over servers comes to: whether an exception left it, the attempts, how many servers it counted, and what it
    adds to the counts of the status. -/
structure UpdateRun (σ W : Type) where
  thrown : Bool
  tries : List (Try σ Attempt)
  succeeded : Nat
  statusWarn : Int32 := 0
  statusOk : Int32 := 0
  statusError : Int32 := 0
  world : W

def updateLoop (attempt : σ → W → Attempt × W) (maxretry : Nat) (doservers : List σ) (w : W) : UpdateRun σ W :=
  let r := rounds (counted attempt) updateVerdict maxretry 0 doservers (w, 0)
  let succeeded := r.world.2
  if r.stopped then { thrown := true, tries := r.tries, succeeded, world := r.world.1 }
  else if succeeded ≠ 0 then
    { thrown := false, tries := r.tries, succeeded, statusWarn := Int32.ofNat (doservers.length - succeeded), statusOk := 1,
      world := r.world.1 }
  else { thrown := false, tries := r.tries, succeeded, statusError := 1, world := r.world.1 }

variable [DecidableEq σ] (st : ServerChoice σ) (maxretry : Nat)

/-- The update of `nntp_group`, if headers are asked for. -/
def ServerSession.nntpGroup (group : Text) (getheaders : Bool) (w : W) : Option (UpdateRun σ W) :=
  if getheaders then
    some (updateLoop (fun s => out.hold s [out.doopen, out.dogroupHeaders group]) maxretry
      (st.nntpSimplePrioritize (st.priogrouping group)) w)
  else none

def ServerSession.nntpXgroup (group : Text) (patinfos : List Text) (w : W) : UpdateRun σ W :=
  updateLoop (fun s => out.hold s ([out.doopen, out.dogroup group] ++ patinfos.map out.doxpat ++ [out.doxover])) maxretry
    (st.nntpSimplePrioritize (st.priogrouping group)) w

/-- The grouping that the lists of groups are got with. -/
def ServerChoice.grouplistPriogroup (st : ServerChoice σ) : ServerPriorityGrouping σ :=
  (st.nconfig.getpriogrouping "_grouplist".toList).getD st.nconfig.defaultGrouping

/-- The update of `nntp_grouplist`, if it is asked for. -/
def ServerSession.nntpGrouplist (update : Bool) (w : W) : Option (UpdateRun σ W) :=
  if update then
    some (updateLoop (fun s => out.hold s [out.doopen, out.dogrouplist none, out.dogroupdescriptions none]) maxretry
      (st.nntpSimplePrioritize st.grouplistPriogroup) w)
  else none

def ServerSession.nntpXgrouplist (patinfos : List Text) (w : W) : UpdateRun σ W :=
  updateLoop (fun s => out.hold s (out.doopen ::
      patinfos.flatMap fun wildmat => [out.dogrouplist (some wildmat), out.dogroupdescriptions (some wildmat)])) maxretry
    (st.nntpSimplePrioritize st.grouplistPriogroup) w

end
end Nget

import Nget.DoArgs
import Mathlib

/-! What becomes of the retrieve requests of a command line. A request is queued with the groups of its moment; the queue is
    handed on as a whole before anything changes the groups, the server or the mode, so that what is handed on are the
    requests of one group list, each once and in order. -/

namespace Nget
open CString Outcome

variable {ρ γ W : Type}

/-- A request as it was queued: for files of some groups, or for newsgroups; with a pattern in a mode without cache. -/
inductive Ask (ρ γ : Type)
  | files (groups : List (Option Nat)) (info : ArgsGetinfo ρ) (pat : Option Xpat)
  | groups (info : GrouplistGetinfo γ) (pat : Option Xpat)

namespace ArgsCall

/-- The calls of `-F`, which are made while requests are queued. -/
inductive OfFlush : ArgsCall ρ γ → Prop
  | group {g options} : OfFlush (.group g false options)
  | flushlow {server} : OfFlush (.flushlow server)
  | grouplist {options} : OfFlush (.grouplist false options)
  | glistFlushserver {server} : OfFlush (.glistFlushserver server)

/-- The calls that update or that change the server. -/
inductive OfCommand : ArgsCall ρ γ → Prop
  | group {g options} : OfCommand (.group g true options)
  | grouplist {options} : OfCommand (.grouplist true options)
  | openHost {host} : OfCommand (.openHost host)

end ArgsCall

/-- What an event does to the queued requests: a call takes all of them, as they are, or none. -/
inductive Handles : List (Ask ρ γ) → ArgsEvent ρ γ → List (Ask ρ γ) → Prop
  | asked {asks groups info pat} : Handles asks (.asked groups info pat) (asks ++ [.files groups info pat])
  | askedGroups {asks info pat} : Handles asks (.askedGroups info pat) (asks ++ [.groups info pat])
  | retrieve {groups options} {infos : List (ArgsGetinfo ρ)} :
    Handles (infos.map fun info => .files groups info none) (.called (.retrieve groups infos options)) []
  | retrieveXpat {groups pats options} {asks : List (ArgsGetinfo ρ × Xpat)} (h : ∀ a ∈ asks, a.2 ∈ pats) :
    Handles (asks.map fun a => .files groups a.1 (some a.2))
      (.called (.retrieveXpat groups (asks.map (·.1)) pats options)) []
  | search {options} {infos : List (GrouplistGetinfo γ)} :
    Handles (infos.map fun info => .groups info none) (.called (.grouplistSearch infos options)) []
  | searchXpat {pats options} {asks : List (GrouplistGetinfo γ × Xpat)} (h : ∀ a ∈ asks, a.2 ∈ pats) :
    Handles (asks.map fun a => .groups a.1 (some a.2)) (.called (.grouplistSearchXpat (asks.map (·.1)) pats options)) []
  | refused {asks : List (GrouplistGetinfo γ × Option Xpat)} :
    Handles (asks.map fun a => .groups a.1 a.2) (.refused (asks.map (·.1))) []
  | flush {asks call} (h : ArgsCall.OfFlush call) : Handles asks (.called call) asks
  | command {call} (h : ArgsCall.OfCommand call) : Handles [] (.called call) []
  | gaveUp {asks} : Handles asks .gaveUp []

/-- The history is in order, with these requests queued at its end. -/
inductive Orderly : List (ArgsEvent ρ γ) → List (Ask ρ γ) → Prop
  | nil : Orderly [] []
  | snoc {history asks event asks'} (h : Orderly history asks) (he : Handles asks event asks') :
    Orderly (history ++ [event]) asks'

/-! ### Accounts -/

namespace Ask

def file : Ask ρ γ → List (List (Option Nat) × ArgsGetinfo ρ)
  | .files gs info _ => [(gs, info)]
  | .groups .. => []

def group : Ask ρ γ → List (GrouplistGetinfo γ)
  | .files _ _ _ => []
  | .groups info _ => [info]

end Ask

namespace ArgsEvent

/-- The request for files that is queued, with its groups. -/
def filesAsked : ArgsEvent ρ γ → List (List (Option Nat) × ArgsGetinfo ρ)
  | .asked groups info _ => [(groups, info)]
  | _ => []

/-- The requests for files that are handed on, with the groups that they are handed on with. -/
def filesTaken : ArgsEvent ρ γ → List (List (Option Nat) × ArgsGetinfo ρ)
  | .called (.retrieve groups infos _) => infos.map fun info => (groups, info)
  | .called (.retrieveXpat groups infos _ _) => infos.map fun info => (groups, info)
  | _ => []

def groupsAsked : ArgsEvent ρ γ → List (GrouplistGetinfo γ)
  | .askedGroups info _ => [info]
  | _ => []

/-- The requests for newsgroups that are handed on, or refused with a message. -/
def groupsTaken : ArgsEvent ρ γ → List (GrouplistGetinfo γ)
  | .called (.grouplistSearch infos _) => infos
  | .called (.grouplistSearchXpat infos _ _) => infos
  | .refused infos => infos
  | _ => []

end ArgsEvent

/-- Unless the line is given up, an event takes requests from the front and puts new ones at the end. -/
theorem Handles.files {asks asks' : List (Ask ρ γ)} {event : ArgsEvent ρ γ} (h : Handles asks event asks') (hne :
    event ≠ .gaveUp) :
    event.filesTaken ++ asks'.flatMap Ask.file = asks.flatMap Ask.file ++ event.filesAsked := by
  cases h with
  | asked => simp [ArgsEvent.filesTaken, ArgsEvent.filesAsked, Ask.file]
  | askedGroups => simp [ArgsEvent.filesTaken, ArgsEvent.filesAsked, Ask.file]
  | retrieve | retrieveXpat | search | searchXpat | refused =>
    simp [ArgsEvent.filesTaken, ArgsEvent.filesAsked, Ask.file, List.flatMap_map, Function.comp_def, ← List.map_eq_flatMap]
  | flush h | command h => cases h <;> simp [ArgsEvent.filesTaken, ArgsEvent.filesAsked]
  | gaveUp => exact absurd rfl hne

theorem Handles.groups {asks asks' : List (Ask ρ γ)} {event : ArgsEvent ρ γ} (h : Handles asks event asks')
    (hne : event ≠ .gaveUp) :
    event.groupsTaken ++ asks'.flatMap Ask.group = asks.flatMap Ask.group ++ event.groupsAsked := by
  cases h with
  | asked => simp [ArgsEvent.groupsTaken, ArgsEvent.groupsAsked, Ask.group]
  | askedGroups => simp [ArgsEvent.groupsTaken, ArgsEvent.groupsAsked, Ask.group]
  | retrieve | retrieveXpat | search | searchXpat | refused =>
    simp [ArgsEvent.groupsTaken, ArgsEvent.groupsAsked, Ask.group, List.flatMap_map, ← List.map_eq_flatMap]
  | flush h | command h => cases h <;> simp [ArgsEvent.groupsTaken, ArgsEvent.groupsAsked]
  | gaveUp => exact absurd rfl hne

/-- What was taken, and then what is still queued, is what was asked for. -/
theorem Orderly.account {κ : Type} {history : List (ArgsEvent ρ γ)} {asks : List (Ask ρ γ)} (h : Orderly history asks)
    {kind : Ask ρ γ → List κ} {taken asked : ArgsEvent ρ γ → List κ}
    (hkind : ∀ {asks asks' event}, Handles asks event asks' → event ≠ .gaveUp →
      taken event ++ asks'.flatMap kind = asks.flatMap kind ++ asked event) (hgave : .gaveUp ∉ history) :
    history.flatMap taken ++ asks.flatMap kind = history.flatMap asked := by
  induction h with
  | nil => rfl
  | @snoc history asks event asks' h he ih =>
    rw [List.mem_append, List.mem_singleton, not_or] at hgave
    calc (history ++ [event]).flatMap taken ++ asks'.flatMap kind
        = history.flatMap taken ++ (taken event ++ asks'.flatMap kind) := by simp
      _ = (history.flatMap taken ++ asks.flatMap kind) ++ asked event := by
        rw [hkind he (Ne.symm hgave.2), List.append_assoc]
      _ = (history ++ [event]).flatMap asked := by
        rw [ih hgave.1]
        simp

namespace DoArgs

/-! ### What is queued -/

/-- The request is for the groups and the mode of the options. -/
def Fits (options : CmdOptions) (patinfos : List Xpat) : Ask ρ γ → Prop
  | .files groups _ none => groups = options.groups ∧ options.cmdmode = .retrieve
  | .files groups _ (some pat) => groups = options.groups ∧ options.cmdmode = .nocacheRetrieve ∧ pat ∈ patinfos
  | .groups _ none => options.cmdmode = .grouplist
  | .groups _ (some pat) => options.cmdmode = .nocacheGrouplist ∧ pat ∈ patinfos

def fileInfo : Ask ρ γ → Option (ArgsGetinfo ρ)
  | .files _ info _ => some info
  | .groups _ _ => none

def groupInfo : Ask ρ γ → Option (GrouplistGetinfo γ)
  | .files _ _ _ => none
  | .groups info _ => some info

/-- The queues of the state hold these requests, which the history has left. -/
structure Queued (st : ArgsState ρ γ W) (asks : List (Ask ρ γ)) : Prop where
  orderly : Orderly st.history asks
  getinfos : st.getinfos = asks.filterMap fileInfo
  grouplistgetinfos : st.grouplistgetinfos = asks.filterMap groupInfo
  fits : ∀ a ∈ asks, Fits st.options st.patinfos a
  nocache : st.patinfos ≠ [] → st.options.cmdmode = .nocacheRetrieve ∨ st.options.cmdmode = .nocacheGrouplist

def Queue (st : ArgsState ρ γ W) : Prop := ∃ asks, Queued st asks

/-- Nothing is queued. -/
structure Clear (st : ArgsState ρ γ W) : Prop where
  orderly : Orderly st.history []
  getinfos : st.getinfos = []
  patinfos : st.patinfos = []
  grouplistgetinfos : st.grouplistgetinfos = []

/-- What an exception leaves. -/
def Left (st : ArgsState ρ γ W) : Prop := ∃ asks, Orderly st.history asks

theorem Queue.left {st : ArgsState ρ γ W} : Queue st → Left st := fun ⟨asks, h⟩ => ⟨asks, h.orderly⟩

theorem Clear.left {st : ArgsState ρ γ W} (h : Clear st) : Left st := ⟨[], h.orderly⟩

theorem Clear.queued {st : ArgsState ρ γ W} (h : Clear st) : Queued st [] where
  orderly := h.orderly
  getinfos := h.getinfos
  grouplistgetinfos := h.grouplistgetinfos
  fits _ ha := by cases ha
  nocache hne := absurd h.patinfos hne

theorem Clear.queue {st : ArgsState ρ γ W} (h : Clear st) : Queue st := ⟨[], h.queued⟩

/-! ### Settings -/

/-- The options have the same groups and the same mode. -/
def KeepsGroups (f : CmdOptions → CmdOptions) : Prop := ∀ o, (f o).groups = o.groups ∧ (f o).cmdmode = o.cmdmode

/-- The groups, the mode, the queue and the history are the same. -/
structure Same (s t : ArgsState ρ γ W) : Prop where
  groups : t.options.groups = s.options.groups
  cmdmode : t.options.cmdmode = s.options.cmdmode
  getinfos : t.getinfos = s.getinfos
  patinfos : t.patinfos = s.patinfos
  grouplistgetinfos : t.grouplistgetinfos = s.grouplistgetinfos
  history : t.history = s.history

instance : Std.Refl (@Same ρ γ W) := ⟨fun _ => ⟨rfl, rfl, rfl, rfl, rfl, rfl⟩⟩

instance : IsTrans (ArgsState ρ γ W) Same := ⟨fun _ _ _ h h' =>
  ⟨h'.groups.trans h.groups, h'.cmdmode.trans h.cmdmode, h'.getinfos.trans h.getinfos, h'.patinfos.trans h.patinfos,
    h'.grouplistgetinfos.trans h.grouplistgetinfos, h'.history.trans h.history⟩⟩

theorem Fits.congr {o o' : CmdOptions} {pats : List Xpat} (hg : o'.groups = o.groups) (hm : o'.cmdmode = o.cmdmode) :
    ∀ {a : Ask ρ γ}, Fits o pats a → Fits o' pats a
  | .files _ _ none, h => ⟨h.1.trans hg.symm, hm.trans h.2⟩
  | .files _ _ (some _), h => ⟨h.1.trans hg.symm, hm.trans h.2.1, h.2.2⟩
  | .groups _ none, h => hm.trans h
  | .groups _ (some _), h => ⟨hm.trans h.1, h.2⟩

theorem Fits.mono {o : CmdOptions} {pats pats' : List Xpat} (hp : ∀ x ∈ pats, x ∈ pats') :
    ∀ {a : Ask ρ γ}, Fits o pats a → Fits o pats' a
  | .files _ _ none, h => h
  | .files _ _ (some _), h => ⟨h.1, h.2.1, hp _ h.2.2⟩
  | .groups _ none, h => h
  | .groups _ (some _), h => ⟨h.1, hp _ h.2⟩

theorem Queued.same {s t : ArgsState ρ γ W} {asks : List (Ask ρ γ)} (h : Queued s asks) (hst : Same s t) : Queued t asks where
  orderly := hst.history ▸ h.orderly
  getinfos := hst.getinfos.trans h.getinfos
  grouplistgetinfos := hst.grouplistgetinfos.trans h.grouplistgetinfos
  fits a ha := hst.patinfos ▸ (h.fits a ha).congr hst.groups hst.cmdmode
  nocache hne := hst.cmdmode ▸ h.nocache (hst.patinfos ▸ hne)

theorem Clear.same {s t : ArgsState ρ γ W} (h : Clear s) (hst : Same s t) : Clear t where
  orderly := hst.history ▸ h.orderly
  getinfos := hst.getinfos.trans h.getinfos
  patinfos := hst.patinfos.trans h.patinfos
  grouplistgetinfos := hst.grouplistgetinfos.trans h.grouplistgetinfos

/-- What is the same keeps the queue. -/
theorem Within.queue {α : Type} {x : ArgsM ρ γ W α} (h : Within Same x) : Triple Queue x (fun _ => Queue) Left :=
  h.triple (fun _ _ ⟨asks, hs⟩ hst => ⟨asks, hs.same hst⟩) fun _ => Queue.left

theorem Within.clear {α : Type} {x : ArgsM ρ γ W α} (h : Within Same x) : Triple Clear x (fun _ => Clear) Left :=
  h.triple (fun _ _ hs hst => hs.same hst) fun _ => Clear.left

section
variable {out : ArgsOutside ρ γ W}

theorem setOptions_same {f : CmdOptions → CmdOptions} (hf : KeepsGroups f) : Within Same (setOptions f : ArgsM ρ γ W Unit) :=
  .modify fun st => ⟨(hf st.options).1, (hf st.options).2, rfl, rfl, rfl, rfl⟩

theorem setWorld_same {w : W} : Within Same (setWorld w : ArgsM ρ γ W Unit) := .modify fun _ => ⟨rfl, rfl, rfl, rfl, rfl, rfl⟩

theorem outside_same {α : Type} {f : W → Except Text α × W} : Within Same (outside f : ArgsM ρ γ W α) :=
  .get_bind fun st => by
    rcases f st.world with ⟨_ | _, world⟩
    · exact (setWorld_same.bind fun _ => .throw _) st
    · exact (setWorld_same.bind fun _ => .pure _) st

theorem userError_same : Within Same (userError out) :=
  (Within.modify fun _ => ⟨rfl, rfl, rfl, rfl, rfl, rfl⟩).bind fun _ => .ite (fun _ => .throw _) fun _ => .pure _

theorem pathError_same : Within Same (pathError out) :=
  (Within.modify fun _ => ⟨rfl, rfl, rfl, rfl, rfl, rfl⟩).bind fun _ => .ite (fun _ => .throw _) fun _ => .pure _

theorem setOrUserError_same {set : CmdOptions → Option CmdOptions}
    (hset : ∀ o o', set o = some o' → o'.groups = o.groups ∧ o'.cmdmode = o.cmdmode) : Within Same (setOrUserError out set) :=
  .get_bind fun st => by
    cases hs : set st.options with
    | some o' => exact ⟨(hset _ _ hs).1, (hset _ _ hs).2, rfl, rfl, rfl, rfl⟩
    | none => exact userError_same st

theorem parseDupeFlags_same : ∀ opts : Text, Within Same (parseDupeFlags out opts)
  | [] => .pure _
  | opt :: opts => by
    refine (setOrUserError_same fun o o' h => ?_).bind fun _ => parseDupeFlags_same opts
    unfold CmdOptions.dupeFlag at h
    repeat (split at h; · cases h; exact ⟨rfl, rfl⟩)
    cases h

theorem number_same {isSigned : Bool} {lo hi : Int} {arg : Text} {set : Int → CmdOptions → CmdOptions}
    (hset : ∀ v, KeepsGroups (set v)) : Within Same (number out isSigned lo hi arg set) := by
  unfold number
  cases parsestr isSigned lo hi arg with
  | some v => exact setOptions_same (hset v)
  | none => exact userError_same

theorem chdirStartpath_same : Within Same (chdirStartpath out) :=
  Within.get.bind fun _ => setWorld_same.bind fun _ => .ite
    (fun _ => (Within.modify fun _ => ⟨rfl, rfl, rfl, rfl, rfl, rfl⟩).bind fun _ => .throw _) fun _ => .pure _

theorem getTemppath_same : Within Same (getTemppath out) :=
  outside_same.bind fun _ => setOptions_same fun _ => by exact ⟨rfl, rfl⟩

theorem doTemppath_same {arg : Text} : Within Same (doTemppath out arg) :=
  Within.get.bind fun _ => outside_same.bind fun _ => .ite
    (fun _ => getTemppath_same.bind fun _ => (setOptions_same fun _ => by exact ⟨rfl, rfl⟩).bind fun _ => chdirStartpath_same)
    fun _ => pathError_same.bind fun _ => setOptions_same fun _ => by exact ⟨rfl, rfl⟩

theorem doPath_same {arg : Text} : Within Same (doPath out arg) :=
  Within.get.bind fun _ => outside_same.bind fun _ => .ite
    (fun _ => (setOptions_same fun _ => by exact ⟨rfl, rfl⟩).bind fun _ => outside_same.bind fun _ =>
      (setOptions_same fun _ => by exact ⟨rfl, rfl⟩).bind fun _ => getTemppath_same.bind fun _ =>
      (setOptions_same fun _ => by exact ⟨rfl, rfl⟩).bind fun _ => chdirStartpath_same)
    fun _ => pathError_same.bind fun _ => setOptions_same fun _ => by exact ⟨rfl, rfl⟩

theorem throwIf_same {failure : Option Text} : Within Same (throwIf failure : ArgsM ρ γ W Unit) := by
  cases failure with
  | some text => exact .throw _
  | none => exact .pure _

theorem listWords_same {failure : Option Text} :
    ∀ (lines arglist : List Text), Within Same (listWords out failure lines arglist)
  | [], _ => throwIf_same.bind fun _ => .pure _
  | line :: lines, arglist => by
    unfold listWords
    cases parseargs arglist line true with
    | mk r words =>
      cases r with
      | ok _ => exact listWords_same lines words
      | error _ => exact userError_same.bind fun _ => .pure _

/-! ### Calls and requests -/

/-- A call: what noting it makes of a condition that only depends on the groups, the mode, the queue and the history. -/
theorem call_triple {P Q : ArgsState ρ γ W → Prop} {c : ArgsCall ρ γ}
    (hnote : ∀ st, P st → Q { st with history := st.history ++ [.called c] }) (hsame : ∀ s t, Q s → Same s t → Q t)
    (hleft : ∀ st, Q st → Left st) : Triple P (call out c) (fun _ => Q) Left :=
  (Triple.modify hnote).bind fun _ => outside_same.triple hsame hleft

theorem Queue.same {s t : ArgsState ρ γ W} : Queue s → Same s t → Queue t := fun ⟨asks, hs⟩ hst => ⟨asks, hs.same hst⟩

theorem call_flush {c : ArgsCall ρ γ} (hc : ArgsCall.OfFlush c) : Triple Queue (call out c) (fun _ => Queue) Left := by
  refine call_triple (fun st hq => ?_) (fun _ _ => Queue.same) fun _ => Queue.left
  obtain ⟨asks, h⟩ := hq
  exact ⟨asks, { h with orderly := h.orderly.snoc (.flush hc) }⟩

theorem call_command {c : ArgsCall ρ γ} (hc : ArgsCall.OfCommand c) : Triple Clear (call out c) (fun _ => Clear) Left :=
  call_triple (fun _ h => { h with orderly := h.orderly.snoc (.command hc) }) (fun _ _ => Clear.same) fun _ => Clear.left

theorem askFiles_post {st : ArgsState ρ γ W} {pred : ρ} {pat : Option Xpat} (hq : Queue st)
    (hfits : ∀ info : ArgsGetinfo ρ, @Fits ρ γ st.options st.patinfos (.files st.options.groups info pat)) :
    Post (fun _ => Queue) Left (askFiles out pred pat st) := by
  obtain ⟨asks, h⟩ := hq
  unfold askFiles
  rw [bind_of_ok (show (get : ArgsM ρ γ W _) st = .ok st st from rfl)]
  cases flistOf out st.options st.world with
  | error text => exact ⟨asks, h.orderly⟩
  | ok flist =>
    let info : ArgsGetinfo ρ := ⟨st.options.path, st.options.temppath, pred, st.options.gflags, flist⟩
    refine ⟨asks ++ [.files st.options.groups info pat], h.orderly.snoc .asked, ?_, ?_, fun a ha => ?_, h.nocache⟩
    · exact (congrArg (· ++ [info]) h.getinfos).trans (by simp [List.filterMap_append, fileInfo])
    · exact h.grouplistgetinfos.trans (by simp [List.filterMap_append, groupInfo])
    · rcases List.mem_append.mp ha with ha | ha
      · exact h.fits a ha
      · cases List.mem_singleton.mp ha
        exact hfits info

theorem askGroups_post {st : ArgsState ρ γ W} {pred : γ} {pat : Option Xpat} (hq : Queue st)
    (hfits : ∀ info : GrouplistGetinfo γ, @Fits ρ γ st.options st.patinfos (.groups info pat)) :
    Post (fun _ => Queue) Left (askGroups pred pat st) := by
  obtain ⟨asks, h⟩ := hq
  let info : GrouplistGetinfo γ := ⟨pred, st.options.gflags⟩
  refine ⟨asks ++ [.groups info pat], h.orderly.snoc .askedGroups, ?_, ?_, fun a ha => ?_, h.nocache⟩
  · exact h.getinfos.trans (by simp [List.filterMap_append, fileInfo])
  · exact (congrArg (· ++ [info]) h.grouplistgetinfos).trans (by simp [List.filterMap_append, groupInfo])
  · rcases List.mem_append.mp ha with ha | ha
    · exact h.fits a ha
    · cases List.mem_singleton.mp ha
      exact hfits info

theorem userError_post {st : ArgsState ρ γ W} (hq : Queue st) : Post (fun _ => Queue) Left (userError out st) :=
  (Within.queue userError_same) st hq

theorem doExpretrieve_queue {arg : Text} : Triple Queue (doExpretrieve out arg) (fun _ => Queue) Left := fun st hq => by
  unfold doExpretrieve
  rw [bind_of_ok (show (get : ArgsM ρ γ W _) st = .ok st st from rfl)]
  by_cases hxgroups : st.options.cmdmode = .nocacheGrouplist
  · rw [if_pos hxgroups]
    exact userError_post hq
  rw [if_neg hxgroups]
  by_cases hgroups : st.options.cmdmode = .grouplist
  · rw [if_pos hgroups]
    cases (parseargs [] arg false).1 with
    | error _ => exact userError_post hq
    | ok _ =>
      cases out.makeGrouplistPred (parseargs [] arg false).2 st.options.gflags with
      | error _ => exact userError_post hq
      | ok _ => exact askGroups_post hq fun _ => hgroups
  rw [if_neg hgroups]
  split
  · exact hq
  by_cases hx : st.options.cmdmode = .nocacheRetrieve
  · rw [if_pos hx]
    exact userError_post hq
  rw [if_neg hx]
  split
  · exact userError_post hq
  cases (parseargs [] arg false).1 with
  | error _ => exact userError_post hq
  | ok _ =>
    cases out.makeNntpfilePred (parseargs [] arg false).2 st.options.gflags with
    | error _ => exact userError_post hq
    | ok _ =>
      refine askFiles_post hq fun _ => ⟨rfl, ?_⟩
      cases hmode : st.options.cmdmode
      · rfl
      · exact absurd hmode hgroups
      · exact absurd hmode hx
      · exact absurd hmode hxgroups

/-- A pattern is queued only in a mode without cache. -/
theorem askPattern_post {nocache : Bool} {field arg : Text} {gflags : UInt32} {st : ArgsState ρ γ W} (hq : Queue st)
    (hmode : nocache = true → st.options.cmdmode = .nocacheRetrieve ∨ st.options.cmdmode = .nocacheGrouplist) :
    Post (fun r st' => Queue st' ∧ st'.options = st.options ∧
        ∀ pat, r = .ok pat → (nocache = false ∧ pat = none ∨ ∃ x ∈ st'.patinfos, nocache = true ∧ pat = some x)) Left
      (askPattern (ρ := ρ) (γ := γ) nocache field arg gflags st) := by
  unfold askPattern
  cases nocache with
  | false =>
    refine ⟨hq, rfl, fun pat h => ?_⟩
    cases h
    exact Or.inl ⟨rfl, rfl⟩
  | true =>
    rw [if_pos rfl]
    cases regex2wildmat arg (gflags &&& getfilesCasesensitive = 0) with
    | error _ => exact ⟨hq, rfl, fun pat h => by cases h⟩
    | ok wildmat =>
      obtain ⟨asks, h⟩ := hq
      refine ⟨⟨asks, ⟨h.orderly, h.getinfos, h.grouplistgetinfos, fun a ha => ?_, fun _ => hmode rfl⟩⟩, rfl, fun pat h => ?_⟩
      · exact (h.fits a ha).mono fun x hx => List.mem_append_left _ hx
      · cases h
        exact Or.inr ⟨_, List.mem_append_right _ List.mem_cons_self, rfl, rfl⟩

/-- What a request does after its pattern. -/
theorem afterPattern {nocache : Bool} {field arg : Text} {gflags : UInt32} {st : ArgsState ρ γ W} (hq : Queue st)
    (hmode : nocache = true → st.options.cmdmode = .nocacheRetrieve ∨ st.options.cmdmode = .nocacheGrouplist)
    {rest : Option Xpat → ArgsM ρ γ W Unit}
    (hrest : ∀ pat st', Queue st' → st'.options = st.options →
      (nocache = false ∧ pat = none ∨ ∃ x ∈ st'.patinfos, nocache = true ∧ pat = some x) →
      Post (fun _ => Queue) Left (rest pat st')) :
    Post (fun _ => Queue) Left ((askPattern nocache field arg gflags >>= fun r =>
      match r with
      | .error () => userError out
      | .ok pat => rest pat) st) := by
  have hpattern := @askPattern_post ρ γ W nocache field arg gflags st hq hmode
  cases hr : askPattern (ρ := ρ) (γ := γ) nocache field arg gflags st with
  | error e st' =>
    rw [hr] at hpattern
    rw [bind_of_error hr]
    exact hpattern
  | ok r st' =>
    rw [hr] at hpattern
    rw [bind_of_ok hr]
    obtain ⟨hq', hoptions, hpat⟩ := hpattern
    cases r with
    | error _ => exact userError_post hq'
    | ok pat => exact hrest pat st' hq' hoptions (hpat pat rfl)

theorem doRetrieve_queue {arg : Text} : Triple Queue (doRetrieve out arg) (fun _ => Queue) Left := fun st hq => by
  unfold doRetrieve
  rw [bind_of_ok (show (get : ArgsM ρ γ W _) st = .ok st st from rfl)]
  by_cases hgroups : (st.options.cmdmode = .grouplist || st.options.cmdmode = .nocacheGrouplist) = true
  · rw [if_pos hgroups]
    refine afterPattern hq (fun h => Or.inr (of_decide_eq_true h)) fun pat st' hq' hoptions hpat => ?_
    cases out.makeGrouplistPred (groupWords arg) st.options.gflags with
    | error e =>
      cases e with
      | regex _ => exact userError_post hq'
      | user _ => exact hq'.left
    | ok _ =>
      refine askGroups_post hq' fun _ => ?_
      rw [hoptions]
      rcases hpat with ⟨hno, rfl⟩ | ⟨x, hx, hyes, rfl⟩
      · have hmode := ((Bool.or_eq_true _ _).mp hgroups).resolve_right fun h => by rw [h] at hno; cases hno
        exact show st.options.cmdmode = .grouplist from of_decide_eq_true hmode
      · exact ⟨of_decide_eq_true hyes, hx⟩
  rw [if_neg hgroups]
  split
  · exact hq
  split
  · exact userError_post hq
  refine afterPattern hq (fun h => Or.inl (of_decide_eq_true h)) fun pat st' hq' hoptions hpat => ?_
  cases out.makeNntpfilePred (fileWords st.options arg) st.options.gflags with
  | error e =>
    cases e with
    | regex _ => exact userError_post hq'
    | user _ => exact hq'.left
  | ok _ =>
    refine askFiles_post hq' fun _ => ?_
    rw [hoptions]
    rcases hpat with ⟨hno, rfl⟩ | ⟨x, hx, hyes, rfl⟩
    · refine ⟨rfl, ?_⟩
      cases hmode : st.options.cmdmode <;> simp [hmode] at hgroups hno ⊢
    · exact ⟨rfl, of_decide_eq_true hyes, hx⟩

theorem flushGroups_queue {server : Text} :
    ∀ gis : List (Option Nat), Triple Queue (flushGroups out server gis) (fun _ => Queue) Left
  | [] => .pure fun _ => id
  | gi :: gis => fun st hq => by
    unfold flushGroups
    rw [bind_of_ok (show (get : ArgsM ρ γ W _) st = .ok st st from rfl)]
    exact ((call_flush .group).bind fun _ => (call_flush .flushlow).bind fun _ => flushGroups_queue gis) st hq

theorem doFlushserver_queue {arg : Text} : Triple Queue (doFlushserver out arg) (fun _ => Queue) Left := fun st hq => by
  unfold doFlushserver
  rw [bind_of_ok (show (get : ArgsM ρ γ W _) st = .ok st st from rfl)]
  cases out.getserver arg with
  | none => exact userError_post hq
  | some server =>
    refine Triple.ite (fun _ => Within.queue userError_same) (fun _ => ?_) st hq
    refine .ite (fun _ => (call_flush .grouplist).bind fun _ => call_flush .glistFlushserver) fun _ => ?_
    exact .ite (fun _ => Within.queue userError_same) fun _ => flushGroups_queue _

/-- The options of an option whose argument may be invalid. -/
theorem setTestMulti_keeps {arg : Text} {o o' : CmdOptions} (h : o.setTestMulti arg = some o') :
    o'.groups = o.groups ∧ o'.cmdmode = o.cmdmode := by
  unfold CmdOptions.setTestMulti at h
  repeat (split at h; · cases h; exact ⟨rfl, rfl⟩)
  cases h

theorem setTextHandling_keeps {arg : Text} {o o' : CmdOptions} (h : o.setTextHandling arg = some o') :
    o'.groups = o.groups ∧ o'.cmdmode = o.cmdmode := by
  unfold CmdOptions.setTextHandling at h
  repeat (split at h; · cases h; exact ⟨rfl, rfl⟩)
  cases h

theorem setSaveTextForBinaries_keeps {arg : Text} {o o' : CmdOptions} (h : o.setSaveTextForBinaries arg = some o') :
    o'.groups = o.groups ∧ o'.cmdmode = o.cmdmode := by
  unfold CmdOptions.setSaveTextForBinaries at h
  repeat (split at h; · cases h; exact ⟨rfl, rfl⟩)
  cases h

theorem setMakedirs_keeps {arg : Text} {o o' : CmdOptions} (h : o.setMakedirs arg = some o') :
    o'.groups = o.groups ∧ o'.cmdmode = o.cmdmode := by
  unfold CmdOptions.setMakedirs at h
  repeat (split at h; · cases h; exact ⟨rfl, rfl⟩)
  split at h
  · cases h
  · cases h
    exact ⟨rfl, rfl⟩

theorem doTimeout_same {arg : Text} : Within Same (doTimeout out arg) := by
  unfold doTimeout
  cases parsestr true 1 intMax arg with
  | some v => exact .modify fun _ => ⟨rfl, rfl, rfl, rfl, rfl, rfl⟩
  | none => exact userError_same

theorem doMaxlines_same {arg : Text} : Within Same (doMaxlines out arg) :=
  .ite (fun _ => setOptions_same fun _ => ⟨rfl, rfl⟩) fun _ => number_same fun _ _ => ⟨rfl, rfl⟩

theorem doDupepath_same {arg : Text} : Within Same (doDupepath out arg) :=
  outside_same.bind fun _ => .ite (fun _ => setOptions_same fun _ => by exact ⟨rfl, rfl⟩) fun _ => pathError_same

theorem doUnmark_same : Within Same (doUnmark out) :=
  (setOptions_same fun _ => by exact ⟨rfl, rfl⟩).bind fun _ => parseDupeFlags_same _

/-- The cases of the switch keep the queue, or add to it. -/
theorem doSetting_queue {opt : ArgsOpt} {set : ArgsM ρ γ W Unit} (h : doSetting out opt = some set) :
    Triple Queue set (fun _ => Queue) Left := by
  cases opt <;> unfold doSetting at h <;> cases h
  case testMulti => exact Within.queue (setOrUserError_same fun _ _ => setTestMulti_keeps)
  case textHandling => exact Within.queue (setOrUserError_same fun _ _ => setTextHandling_keeps)
  case saveTextForBinaries => exact Within.queue (setOrUserError_same fun _ _ => setSaveTextForBinaries_keeps)
  case makedirs => exact Within.queue (setOrUserError_same fun _ _ => setMakedirs_keeps)
  case expretrieve => exact doExpretrieve_queue
  case retrieve => exact doRetrieve_queue
  case flushserver => exact doFlushserver_queue
  case unmark => exact Within.queue doUnmark_same
  case dupecheck | noDupecheck => exact Within.queue (parseDupeFlags_same _)
  case quiet => exact Within.queue (.modify fun _ => ⟨rfl, rfl, rfl, rfl, rfl, rfl⟩)
  case timeout => exact Within.queue doTimeout_same
  case maxlines => exact Within.queue doMaxlines_same
  case delay | tries | limit | fullxover => exact Within.queue (number_same fun _ _ => ⟨rfl, rfl⟩)
  case temppath => exact Within.queue doTemppath_same
  case path => exact Within.queue doPath_same
  case dupepath => exact Within.queue doDupepath_same
  case bad => exact Within.queue userError_same
  -- The other cases set flags and fields of the options.
  all_goals exact Within.queue (setOptions_same fun _ => ⟨rfl, rfl⟩)

/-! ### Handing on -/

theorem exists_map {α β : Type} {f : β → α} {r : β → Prop} : ∀ {as : List α}, (∀ a ∈ as, ∃ b, a = f b ∧ r b) →
    ∃ bs : List β, as = bs.map f ∧ ∀ b ∈ bs, r b
  | [], _ => ⟨[], rfl, fun _ hb => by cases hb⟩
  | a :: as, h => by
    obtain ⟨⟨b, rfl, hb⟩, htail⟩ := List.forall_mem_cons.mp h
    obtain ⟨bs, rfl, hbs⟩ := exists_map htail
    exact ⟨b :: bs, rfl, List.forall_mem_cons.mpr ⟨hb, hbs⟩⟩

theorem filterMap_some {α β δ : Type} {f : β → α} {g : α → Option δ} {k : β → δ} {bs : List β} (h : ∀ b, g (f b) = some (k b)) :
    (bs.map f).filterMap g = bs.map k := by
  rw [List.filterMap_map, ← List.filterMap_eq_map]
  exact congrArg (List.filterMap · bs) (funext h)

theorem filterMap_none {α β δ : Type} {f : β → α} {g : α → Option δ} {bs : List β} (h : ∀ b, g (f b) = none) :
    (bs.map f).filterMap g = [] := by
  rw [List.filterMap_map]
  exact List.filterMap_eq_nil_iff.mpr fun b _ => h b

/-- The requests are of the one kind that the mode has. -/
inductive Shape (st : ArgsState ρ γ W) (asks : List (Ask ρ γ)) : Prop
  | files (hpats : st.patinfos = []) (hasks : asks = st.getinfos.map fun info => .files st.options.groups info none)
    (hgroups : st.grouplistgetinfos = [])
  | groups (hpats : st.patinfos = []) (hasks : asks = st.grouplistgetinfos.map fun info => .groups info none)
    (hfiles : st.getinfos = [])
  | xfiles (pairs : List (ArgsGetinfo ρ × Xpat)) (hasks : asks = pairs.map fun a => .files st.options.groups a.1 (some a.2))
    (hpats : ∀ a ∈ pairs, a.2 ∈ st.patinfos) (hfiles : st.getinfos = pairs.map (·.1)) (hgroups : st.grouplistgetinfos = [])
  | xgroups (pairs : List (GrouplistGetinfo γ × Xpat)) (hasks : asks = pairs.map fun a => .groups a.1 (some a.2))
    (hpats : ∀ a ∈ pairs, a.2 ∈ st.patinfos) (hgroups : st.grouplistgetinfos = pairs.map (·.1)) (hfiles : st.getinfos = [])

theorem Queued.shape {st : ArgsState ρ γ W} {asks : List (Ask ρ γ)} (h : Queued st asks) : Shape st asks := by
  obtain ⟨-, hget, hgroups, hfits, hnocache⟩ := h
  have hpats : st.options.cmdmode ≠ .nocacheRetrieve → st.options.cmdmode ≠ .nocacheGrouplist →
    st.patinfos = [] := fun h1 h2 => by
    by_contra hne
    exact (hnocache hne).elim h1 h2
  cases hmode : st.options.cmdmode with
  | retrieve =>
    obtain ⟨infos, rfl, -⟩ := @exists_map _ _ (fun info => Ask.files st.options.groups info none) (fun _ => True)
      asks fun a ha => by
      have hfit := hfits a ha
      rcases a with ⟨_, info, _ | _⟩ | ⟨_, _ | _⟩ <;> simp [Fits, hmode] at hfit
      exact ⟨info, by rw [hfit], trivial⟩
    have hinfos : st.getinfos = infos := by
      rw [hget, List.filterMap_map]
      exact List.filterMap_some
    exact .files (hpats (by simp [hmode]) (by simp [hmode])) (by rw [hinfos]) (hgroups.trans (filterMap_none fun _ => rfl))
  | grouplist =>
    obtain ⟨infos, rfl, -⟩ := @exists_map _ _ (fun info => Ask.groups info none) (fun _ => True) asks fun a ha => by
      have hfit := hfits a ha
      rcases a with ⟨_, _, _ | _⟩ | ⟨info, _ | _⟩ <;> simp [Fits, hmode] at hfit
      exact ⟨info, rfl, trivial⟩
    have hinfos : st.grouplistgetinfos = infos := by
      rw [hgroups, List.filterMap_map]
      exact List.filterMap_some
    exact .groups (hpats (by simp [hmode]) (by simp [hmode])) (by rw [hinfos]) (hget.trans (filterMap_none fun _ => rfl))
  | nocacheRetrieve =>
    obtain ⟨pairs, rfl, hpairs⟩ := @exists_map _ _ (fun a : ArgsGetinfo ρ × Xpat => Ask.files st.options.groups a.1 (some a.2))
      (fun a => a.2 ∈ st.patinfos) asks fun a ha => by
        have hfit := hfits a ha
        rcases a with ⟨_, info, _ | pat⟩ | ⟨_, _ | _⟩ <;> simp [Fits, hmode] at hfit
        exact ⟨(info, pat), by rw [hfit.1], hfit.2⟩
    exact .xfiles pairs rfl hpairs (hget.trans (filterMap_some fun _ => rfl)) (hgroups.trans (filterMap_none fun _ => rfl))
  | nocacheGrouplist =>
    obtain ⟨pairs, rfl, hpairs⟩ := @exists_map _ _ (fun a : GrouplistGetinfo γ × Xpat => Ask.groups a.1 (some a.2))
      (fun a => a.2 ∈ st.patinfos) asks fun a ha => by
        have hfit := hfits a ha
        rcases a with ⟨_, _, _ | _⟩ | ⟨info, _ | pat⟩ <;> simp [Fits, hmode] at hfit
        exact ⟨(info, pat), rfl, hfit⟩
    exact .xgroups pairs rfl hpairs (hgroups.trans (filterMap_some fun _ => rfl)) (hget.trans (filterMap_none fun _ => rfl))

/-- The requests are taken, and those for files were none. -/
def Taken (st : ArgsState ρ γ W) : Prop := Orderly st.history [] ∧ st.getinfos = []

theorem taken_call {st : ArgsState ρ γ W} {c : ArgsCall ρ γ} {asks : List (Ask ρ γ)} (h : Orderly st.history asks)
    (hc : Handles asks (.called c) []) (hfiles : st.getinfos = []) : Triple (· = st) (call out c) (fun _ => Taken) Left :=
  call_triple (fun _ hst => by subst hst; exact ⟨h.snoc hc, hfiles⟩)
    (fun _ _ hs hst => ⟨hst.history ▸ hs.1, hst.getinfos.trans hs.2⟩) fun _ hs => ⟨[], hs.1⟩

/-- Once the requests are taken, the queues for newsgroups are emptied. -/
theorem taken_clear {x : ArgsM ρ γ W Unit} {st : ArgsState ρ γ W} (hx : Triple (· = st) x (fun _ => Taken) Left) :
    Triple (· = st) (x >>= fun _ => modify fun st => { st with grouplistgetinfos := [], patinfos := [] })
      (fun _ st' => Queue st' ∧ st'.grouplistgetinfos = []) Left :=
  hx.bind fun _ => .modify fun _ h =>
    ⟨⟨[], h.1, h.2, rfl, (fun _ ha => by cases ha), fun hne => absurd rfl hne⟩, rfl⟩

/-- What may be done with requests for newsgroups. -/
structure Searches (st : ArgsState ρ γ W) (asks : List (Ask ρ γ)) : Prop where
  files : st.getinfos = []
  refused : Handles asks (.refused st.grouplistgetinfos) []
  search : st.patinfos = [] → Handles asks (.called (.grouplistSearch st.grouplistgetinfos st.options)) []
  searchXpat : st.patinfos ≠ [] → Handles asks (.called (.grouplistSearchXpat st.grouplistgetinfos st.patinfos st.options)) []

theorem Shape.searches {st : ArgsState ρ γ W} {asks : List (Ask ρ γ)} (h : Shape st asks) (hne : st.grouplistgetinfos ≠ []) :
    Searches st asks := by
  rcases h with ⟨-, -, hgroups⟩ | ⟨hpats, rfl, hfiles⟩ | ⟨_, -, -, -, hgroups⟩ | ⟨pairs, rfl, hpats, hgroups, hfiles⟩
  · exact absurd hgroups hne
  · refine ⟨hfiles, ?_, fun _ => .search, fun hp => absurd hpats hp⟩
    have h := @Handles.refused ρ γ (st.grouplistgetinfos.map fun info => (info, none))
    simpa [Function.comp_def] using h
  · exact absurd hgroups hne
  · refine ⟨hfiles, ?_, fun hp => ?_, fun _ => ?_⟩
    · have h := @Handles.refused ρ γ (pairs.map fun a => (a.1, some a.2))
      simpa [Function.comp_def, hgroups] using h
    · rcases pairs with _ | ⟨a, pairs⟩
      · exact absurd hgroups hne
      · exact absurd (hpats a (.head _)) (by simp [hp])
    · rw [hgroups]
      exact .searchXpat hpats

theorem handOnGroups_triple :
    Triple Queue (handOnGroups out) (fun _ st => Queue st ∧ st.grouplistgetinfos = []) Left := fun st hq => by
  unfold handOnGroups
  rw [bind_of_ok (show (get : ArgsM ρ γ W _) st = .ok st st from rfl)]
  by_cases hnil : st.grouplistgetinfos = []
  · rw [hnil]
    exact ⟨hq, hnil⟩
  obtain ⟨asks, h⟩ := hq
  have hs := h.shape.searches hnil
  rw [if_pos (show (!st.grouplistgetinfos.isEmpty) = true by simpa using hnil)]
  by_cases htest : (!st.options.has getfilesTestmode) = true
  · rw [if_pos htest]
    have hnote : Triple (· = st) (note (.refused st.grouplistgetinfos)) (fun _ => Taken) Left :=
      .modify fun _ hst => by subst hst; exact ⟨h.orderly.snoc hs.refused, hs.files⟩
    rw [← bind_assoc]
    refine taken_clear (hnote.bind fun _ => userError_same.triple ?_ fun _ hs => ⟨[], hs.1⟩) st rfl
    exact fun _ _ hs hst => ⟨hst.history ▸ hs.1, hst.getinfos.trans hs.2⟩
  · rw [if_neg htest]
    by_cases hpats : st.patinfos = []
    · rw [if_neg (by simp [hpats])]
      exact taken_clear (taken_call h.orderly (hs.search hpats) hs.files) st rfl
    · rw [if_pos (by simpa using hpats)]
      exact taken_clear (taken_call h.orderly (hs.searchXpat hpats) hs.files) st rfl

/-- What may be done with requests for files, once those for newsgroups are taken. -/
structure Retrieves (st : ArgsState ρ γ W) (asks : List (Ask ρ γ)) : Prop where
  none : st.patinfos = [] → st.getinfos = [] → asks = []
  retrieve : st.patinfos = [] → Handles asks (.called (.retrieve st.options.groups st.getinfos st.options)) []
  retrieveXpat : st.patinfos ≠ [] →
    Handles asks (.called (.retrieveXpat st.options.groups st.getinfos st.patinfos st.options)) []

theorem Shape.retrieves {st : ArgsState ρ γ W} {asks : List (Ask ρ γ)} (h : Shape st asks) (hnil : st.grouplistgetinfos = []) :
    Retrieves st asks := by
  have hnone : Handles ([] : List (Ask ρ γ)) (.called (.retrieve st.options.groups [] st.options)) [] :=
    @Handles.retrieve _ _ _ _ []
  rcases h with ⟨hpats, rfl, -⟩ | ⟨hpats, rfl, hfiles⟩ | ⟨pairs, rfl, hpats, hfiles, -⟩ | ⟨pairs, rfl, hpats, hgroups, hfiles⟩
  · exact ⟨fun _ hfiles => by simp [hfiles], fun _ => .retrieve, fun hne => absurd hpats hne⟩
  · rw [hnil]
    exact ⟨fun _ _ => rfl, fun _ => by rw [hfiles]; exact hnone, fun hne => absurd hpats hne⟩
  · refine ⟨fun hp hget => ?_, fun hp => ?_, fun _ => by rw [hfiles]; exact .retrieveXpat hpats⟩
    all_goals
      rcases pairs with _ | ⟨a, pairs⟩
      · simp [hfiles, hnone]
      · exact absurd (hpats a (.head _)) (by simp [hp])
  · obtain rfl : pairs = [] := List.map_eq_nil_iff.mp (hgroups.symm.trans hnil)
    refine ⟨fun _ _ => rfl, fun _ => by rw [hfiles]; exact hnone, fun _ => ?_⟩
    rw [hfiles]
    exact @Handles.retrieveXpat _ _ _ _ _ [] fun _ ha => by cases ha

/-- Requests for files are taken by the call, or there are none. -/
theorem handOnFiles_triple :
    Triple (fun st => Queue st ∧ st.grouplistgetinfos = []) (handOnFiles out) (fun _ => Clear) Left := by
  rintro st ⟨⟨asks, h⟩, hgroups⟩
  unfold handOnFiles
  rw [bind_of_ok (show (get : ArgsM ρ γ W _) st = .ok st st from rfl)]
  have hr := h.shape.retrieves hgroups
  have hcall : ∀ c, Handles asks (.called c) [] → Triple (· = st) (call out c)
      (fun _ t => Orderly t.history [] ∧ t.grouplistgetinfos = [] ∧ t.patinfos = st.patinfos) Left := fun c hc =>
    call_triple (fun _ hst => by subst hst; exact ⟨h.orderly.snoc hc, hgroups, rfl⟩)
      (fun _ _ hs hst => ⟨hst.history ▸ hs.1, hst.grouplistgetinfos.trans hs.2.1, hst.patinfos.trans hs.2.2⟩)
      fun _ hs => ⟨[], hs.1⟩
  by_cases hpats : st.patinfos = []
  · rw [if_neg (by simp [hpats])]
    by_cases hget : st.getinfos = []
    · rw [if_neg (by simp [hget])]
      exact ⟨hr.none hpats hget ▸ h.orderly, hget, hpats, hgroups⟩
    · rw [if_pos (by simpa using hget)]
      exact ((hcall _ (hr.retrieve hpats)).bind fun _ => .modify fun _ ht => ⟨ht.1, rfl, ht.2.2.trans hpats, ht.2.1⟩) st rfl
  · rw [if_pos (by simpa using hpats)]
    exact ((hcall _ (hr.retrieveXpat hpats)).bind fun _ => .modify fun _ ht => ⟨ht.1, rfl, rfl, ht.2.1⟩) st rfl

theorem handOn_triple : Triple Queue (handOn out) (fun _ => Clear) Left := handOnGroups_triple.bind fun _ => handOnFiles_triple

/-! ### Commands -/

theorem clear_options {f : CmdOptions → CmdOptions} : Triple Clear (setOptions f : ArgsM ρ γ W Unit) (fun _ => Clear) Left :=
  .modify fun _ h => ⟨h.orderly, h.getinfos, h.patinfos, h.grouplistgetinfos⟩

theorem setGroups_clear {mode : CmdMode} {arg : Text} : Triple Clear (setGroups out mode arg) (fun _ => Clear) Left :=
  clear_options.bind fun _ => (Within.clear outside_same).bind fun _ => clear_options

theorem updateGroups_clear : ∀ groups, Triple Clear (updateGroups out groups) (fun _ => Clear) Left
  | [] => .pure fun _ h => h
  | _ :: groups => .get_keep fun _ _ => (call_command .group).bind fun _ => updateGroups_clear groups

theorem doHost_clear {arg : Text} : Triple Clear (doHost out arg) (fun _ => Clear) Left := by
  have hopen : Triple Clear (get >>= fun st => call out (.openHost st.options.host)) (fun _ => Clear) Left :=
    .get_keep fun _ _ => call_command .openHost
  unfold doHost
  refine .ite (fun _ => clear_options.bind fun _ => hopen) fun _ => ?_
  cases out.getserver arg with
  | none => exact clear_options.bind fun _ => (Within.clear userError_same).bind fun _ => hopen
  | some server => exact clear_options.bind fun _ => hopen

theorem doAvailable_clear : Triple Clear (doAvailable out) (fun _ => Clear) Left :=
  .get_keep fun _ _ => clear_options.bind fun _ =>
    .ite (fun _ => .get_keep fun _ _ => call_command .grouplist) fun _ => .pure fun _ h => h

theorem doGroup_clear {arg : Text} : Triple Clear (doGroup out arg) (fun _ => Clear) Left :=
  .get_keep fun _ _ => setGroups_clear.bind fun _ =>
    .ite (fun _ => .get_keep fun _ _ => updateGroups_clear _) fun _ => .pure fun _ h => h

theorem doCommand_clear {opt : ArgsOpt} {command : ArgsM ρ γ W Unit} (h : doCommand out opt = some command) :
    Triple Clear command (fun _ => Clear) Left := by
  cases opt <;> unfold doCommand at h <;> cases h
  case available => exact doAvailable_clear
  case group => exact doGroup_clear
  case quickgroup | xgroup => exact setGroups_clear
  case host => exact doHost_clear
  case quickavailable | xavailable | bindaddr => exact clear_options

/-! ### The line -/

/-- What a line leaves: the requests that are still queued have been given up, or there are none. -/
def Done (st : ArgsState ρ γ W) : Prop := Orderly st.history []

theorem doList_clear {readOpts : List ArgsOpt → ArgsM ρ γ W Unit} (hread :
    ∀ opts, Triple Clear (readOpts opts) (fun _ => Done) Left)
    {arg : Text} : Triple Clear (doList out readOpts arg) (fun _ => Clear) Left := .get_keep fun st hst => by
  rcases out.openList arg st.world with ⟨_ | _⟩ | file
  · exact Within.clear userError_same
  · exact .throw fun _ => Clear.left
  · refine (Within.clear (listWords_same file.lines [])).bind fun arglist => (Within.clear throwIf_same).bind fun _ =>
      .ite (fun _ => ?_) fun _ => .pure fun _ h => h
    refine .get_keep fun outer houter => Triple.bind (Q := fun _ => Clear) ?_ fun _ => (hread _).bind fun _ =>
      Triple.bind (Q := fun _ => Clear) ?_ fun _ => ?_
    · exact .modify fun _ h => ⟨h.orderly, rfl, rfl, rfl⟩
    · exact .modify fun _ h => ⟨h, houter.getinfos, houter.patinfos, houter.grouplistgetinfos⟩
    · exact .ite (fun _ => (call_command .openHost).bind fun _ => Within.clear chdirStartpath_same) fun _ =>
        Within.clear chdirStartpath_same

theorem gaveUp_done {α : Type} {a : α} :
    Triple Queue (note .gaveUp >>= fun _ => pure a : ArgsM ρ γ W α) (fun _ => Done) Left :=
  Triple.bind (Q := fun _ => Done) (.modify fun _ ⟨_, h⟩ => h.orderly.snoc .gaveUp) fun _ => .pure fun _ h => h

theorem doOpts_done {list : Text → ArgsM ρ γ W Unit} (hlist : ∀ arg, Triple Clear (list arg) (fun _ => Clear) Left) :
    ∀ opts, Triple Queue (doOpts out list opts) (fun _ => Done) Left
  | [] => handOn_triple.bind fun _ => .pure fun _ h => h.orderly
  | opt :: opts => by
    have ih : Triple Clear (doOpts out list opts) (fun _ => Done) Left :=
      (doOpts_done hlist opts).mono (fun _ => Clear.queue) fun _ _ h => h
    unfold doOpts
    cases hset : doSetting out opt with
    | some set => exact (doSetting_queue hset).bind fun _ => doOpts_done hlist opts
    | none =>
      cases opt
      case help => exact gaveUp_done
      case arg => exact (Within.queue userError_same).bind fun _ => gaveUp_done
      case list arg => exact handOn_triple.bind fun _ => (hlist arg).bind fun _ => ih
      all_goals
        refine handOn_triple.bind fun _ => ?_
        cases hcommand : doCommand out _ with
        | some command => exact (doCommand_clear hcommand).bind fun _ => ih
        | none => exact .pure fun _ h => h.orderly

theorem doArgs_done : ∀ (fuel : Nat) (opts : List ArgsOpt), Triple Queue (doArgs out fuel opts) (fun _ => Done) Left
  | 0, _ => .throw fun _ => Queue.left
  | fuel + 1, opts => doOpts_done (fun _ => doList_clear fun opts =>
      ((doArgs_done fuel opts).mono (fun _ => Clear.queue) fun _ _ h => h).bind fun _ => .pure fun _ h => h) opts

end

end DoArgs

/-- The state that a command line starts with. -/
def ArgsState.start (options : CmdOptions) (world : W) : ArgsState ρ γ W := { options, world }

/-- Whatever the options are and however the line ends, requests are handed on in the order in which they were queued, each at
    most once, with the groups that they were queued with, and before the next command; when the line is read to its end, each
    has been handed on, or refused with a message. -/
theorem each_request_is_handed_on_once (out : ArgsOutside ρ γ W) (fuel : Nat) (opts : List ArgsOpt) (options : CmdOptions)
    (world : W) :
    (∃ asks, Orderly (left (doArgs out fuel opts (.start options world))).history asks) ∧
    ∀ code st, doArgs out fuel opts (.start options world) = .ok code st → Orderly st.history [] ∧
      (.gaveUp ∉ st.history →
        st.history.flatMap ArgsEvent.filesTaken = st.history.flatMap ArgsEvent.filesAsked ∧
        st.history.flatMap ArgsEvent.groupsTaken = st.history.flatMap ArgsEvent.groupsAsked) := by
  have hstart : DoArgs.Queue (.start options world : ArgsState ρ γ W) :=
    ⟨[], .nil, rfl, rfl, (fun _ ha => by cases ha), fun hne => absurd rfl hne⟩
  have hdone := @DoArgs.doArgs_done _ _ _ out fuel opts _ hstart
  refine ⟨?_, fun code st hrun => ?_⟩
  · cases hrun : doArgs out fuel opts (.start options world) with
    | ok code st => exact ⟨[], by rw [hrun] at hdone; exact hdone⟩
    | error e st => rw [hrun] at hdone; exact hdone
  · rw [hrun] at hdone
    refine ⟨hdone, fun hgave => ⟨?_, ?_⟩⟩
    · simpa using Orderly.account hdone Handles.files hgave
    · simpa using Orderly.account hdone Handles.groups hgave

/-- Groups and expressions are what they are called, and everything goes well. -/
def sampleOutside : ArgsOutside Text Text Unit where
  fatalUserErrors := true
  getserver := some
  getgroups arg _ := (.ok [some arg.length], ())
  makeNntpfilePred words _ := .ok words.flatten
  makeGrouplistPred words _ := .ok words.flatten
  getcwd _ := (.ok "/tmp".toList, ())
  chdir _ _ := (true, ())
  direxists _ _ := (.ok true, ())
  maybeMkdirChdir _ _ _ := (.ok true, ())
  readDir _ _ := .ok []
  openList _ _ := .error (.noent [])
  popt _ := []
  perform _ _ := (.ok (), ())

theorem each_request_is_handed_on_once_sample :
    ∃ st, doArgs sampleOutside 1 [.quickgroup "a".toList, .retrieve "x".toList, .group "bc".toList, .retrieve "y".toList]
        (.start { path := [], startpath := [], temppath := [] } ()) = .ok 0 st ∧
      st.history.flatMap ArgsEvent.filesTaken = st.history.flatMap ArgsEvent.filesAsked := by
  have hrun : ∃ st, doArgs sampleOutside 1 [.quickgroup "a".toList, .retrieve "x".toList, .group "bc".toList,
      .retrieve "y".toList] (.start { path := [], startpath := [], temppath := [] } ()) = .ok 0 st ∧ .gaveUp ∉ st.history :=
    ⟨_, rfl, by simp [ArgsState.start]⟩
  obtain ⟨st, hrun, hgave⟩ := hrun
  exact ⟨st, hrun, (((each_request_is_handed_on_once sampleOutside 1 _ _ ()).2 0 st hrun).2 hgave).1⟩
end Nget

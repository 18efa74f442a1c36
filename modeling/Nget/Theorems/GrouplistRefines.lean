import Nget.Theorems.GrouplistLoad
import Mathlib

/-! What the group list is for: a relation that says which servers have which groups, and a map from a server and
    a group to what the server last said of it. Every call does to the group list what it does to these, whatever
    the list was loaded from. -/

namespace Nget
open CString

/-- Which servers have which groups, and how a server describes a group. -/
@[ext]
structure Availability (σ γ δ : Type) where
  members : Set (σ × γ)
  descriptions : σ × γ → Option δ

namespace Availability
variable {σ γ δ : Type} [DecidableEq σ] [DecidableEq γ] {a : Availability σ γ δ} {s t : σ} {n : γ}

def addgroup (s : σ) (n : γ) (a : Availability σ γ δ) : Availability σ γ δ := { a with members := insert (s, n) a.members }

def addgroupdesc (s : σ) (n : γ) (d : δ) (a : Availability σ γ δ) : Availability σ γ δ :=
  { a with descriptions := Function.update a.descriptions (s, n) (some d) }

def flushserver (s : σ) (a : Availability σ γ δ) : Availability σ γ δ where
  members := {x ∈ a.members | x.1 ≠ s}
  descriptions x := if x.1 = s then none else a.descriptions x

/-- Nothing of a server is there. -/
def Without (s : σ) (a : Availability σ γ δ) : Prop := ∀ n, (s, n) ∉ a.members ∧ a.descriptions (s, n) = none

/-- The data of a server is the same. -/
def SameAt (s : σ) (a b : Availability σ γ δ) : Prop :=
  ∀ n, ((s, n) ∈ a.members ↔ (s, n) ∈ b.members) ∧ a.descriptions (s, n) = b.descriptions (s, n)

omit [DecidableEq γ] in
theorem flushserver_without : Without s (a.flushserver s) := fun _ => ⟨fun h => h.2 rfl, if_pos rfl⟩

omit [DecidableEq γ] in
theorem flushserver_sameAt (h : t ≠ s) : SameAt t (a.flushserver s) a := fun _ => ⟨and_iff_left h, if_neg h⟩

end Availability

/-- The calls that change a group list. -/
inductive GrouplistCall
  | addgroup (serverid : UInt64) (name : Text)
  | addgroupdesc (serverid : UInt64) (name desc : Text)
  | flushserver (serverid : UInt64)
  | setDate (serverid : UInt64) (date : Text)

namespace GrouplistCall

def run : GrouplistCall → Grouplist → Grouplist
  | addgroup serverid name => Grouplist.addgroup serverid name
  | addgroupdesc serverid name desc => Grouplist.addgroupdesc serverid name desc
  | flushserver serverid => Grouplist.flushserver serverid
  | setDate serverid date => Grouplist.setDate serverid date

/-- What the call does to the availability. -/
def act : GrouplistCall → Availability UInt64 Text Text → Availability UInt64 Text Text
  | addgroup serverid name => Availability.addgroup serverid (cstr name)
  | addgroupdesc serverid name desc => Availability.addgroupdesc serverid (cstr name) (cstr desc)
  | flushserver serverid => Availability.flushserver serverid
  | setDate _ _ => id

/-- The calls, one after the other. -/
def runs (calls : List GrouplistCall) (gl : Grouplist) : Grouplist := calls.foldl (fun gl call => call.run gl) gl

def acts (calls : List GrouplistCall) (a : Availability UInt64 Text Text) : Availability UInt64 Text Text :=
  calls.foldl (fun a call => call.act a) a

end GrouplistCall

namespace Grouplist
variable {gl : Grouplist} {serverid s : UInt64} {name n d desc date : Text}

/-- What the group list says of the servers and the groups. -/
def availability (gl : Grouplist) : Availability UInt64 Text Text where
  members := {x | gl.Has x.1 x.2}
  descriptions x := (gl.groups.find? x.2).bind fun e => (e.2.findServer x.1).map fun sgd => cstr sgd.2.description

/-- The description of a server is what `Describes` says. -/
theorem descriptions_eq_some (h : gl.Sound) : gl.availability.descriptions (s, n) = some d ↔ gl.Describes s n d := by
  show (gl.groups.find? n).bind _ = some d ↔ _
  constructor
  · intro hd
    obtain ⟨e, hfind, hd⟩ := Option.bind_eq_some_iff.mp hd
    obtain ⟨sgd, hsgd, rfl⟩ := Option.map_eq_some_iff.mp hd
    obtain ⟨he, hkey⟩ := SortedMap.find?_eq_some_iff.mp hfind
    obtain ⟨hmem, hs⟩ := GroupAvailability.findServer_eq_some hsgd
    exact ⟨e, he, hkey, sgd, hmem, ((h.group e he).descriptions.key sgd hmem).symm, hs⟩
  · rintro ⟨e, he, hkey, hd⟩
    have hfind : gl.groups.find? n = some e := SortedMap.find?_eq_some_iff.mpr ⟨he, hkey⟩
    obtain ⟨sgd, hsgd, hkey⟩ :=
      Option.map_eq_some_iff.mp ((GroupAvailability.findServer_key (h.group e he).descriptions).mpr hd)
    rw [hfind, Option.bind_some, hsgd, Option.map_some,
      (h.group e he).descriptions.key sgd (GroupAvailability.findServer_eq_some hsgd).1, hkey]

/-- Two descriptions are the same if they say the same. -/
theorem availability_ext {a : Availability UInt64 Text Text} (h : gl.Sound) (hmembers : ∀ s n, gl.Has s n ↔ (s, n) ∈ a.members)
    (hdescs : ∀ s n d, gl.Describes s n d ↔ a.descriptions (s, n) = some d) : gl.availability = a := by
  refine Availability.ext (Set.ext fun x => hmembers x.1 x.2) (funext fun x => Option.ext fun d => ?_)
  exact (descriptions_eq_some h).trans (hdescs x.1 x.2 d)

theorem setDate_groups : (gl.setDate serverid date).groups = gl.groups := by
  unfold setDate
  dsimp only
  cases (gl.getserverinfo serverid).serverInfo.find? serverid <;> rfl

theorem at_congr {gl gl' : Grouplist} {p : GroupAvailability → Prop} (h : gl'.groups = gl.groups) : gl'.At n p ↔ gl.At n p := by
  unfold At
  rw [h]

theorem Sound.congr {gl' : Grouplist} (h : gl.Sound) (hgl : gl'.groups = gl.groups) : gl'.Sound where
  name := hgl ▸ h.name
  group := hgl ▸ h.group

/-- Every call keeps a group list sound. -/
theorem run_sound (h : gl.Sound) (call : GrouplistCall) : (call.run gl).Sound := by
  cases call with
  | addgroup serverid name => exact addgroup_sound h
  | addgroupdesc serverid name desc => exact addgroupdesc_sound h
  | flushserver serverid => exact flushserver_sound h
  | setDate serverid date => exact h.congr setDate_groups

/-- One call does to the group list what it does to the availability. -/
theorem run_availability (h : gl.Sound) (call : GrouplistCall) : (call.run gl).availability = call.act gl.availability := by
  refine availability_ext (run_sound h call) (fun s n => ?_) fun s n d => ?_
  · cases call with
    | addgroup serverid name => exact has_addgroup.trans (or_congr_left Prod.mk_inj.symm)
    | addgroupdesc serverid name desc => exact has_addgroupdesc
    | flushserver serverid => exact has_flushserver h
    | setDate serverid date => exact at_congr setDate_groups
  · cases call with
    | addgroup serverid name => exact describes_addgroup.trans (descriptions_eq_some h).symm
    | addgroupdesc serverid name desc =>
      refine (describes_addgroupdesc h).trans ?_
      show _ ↔ Function.update gl.availability.descriptions (serverid, cstr name) (some (cstr desc)) (s, n) = some d
      by_cases hx : s = serverid ∧ n = cstr name
      · rw [if_pos hx, hx.1, hx.2, Function.update_self, Option.some_inj, eq_comm]
      · rw [if_neg hx, Function.update_of_ne fun heq => hx (Prod.mk_inj.mp heq)]
        exact (descriptions_eq_some h).symm
    | flushserver serverid =>
      refine (describes_flushserver h).trans ?_
      show _ ↔ (if s = serverid then none else gl.availability.descriptions (s, n)) = some d
      by_cases hs : s = serverid
      · simp [hs]
      · rw [if_neg hs, and_iff_left hs]
        exact (descriptions_eq_some h).symm
    | setDate serverid date => exact (at_congr setDate_groups).trans (descriptions_eq_some h).symm

/-- A call that changes the availability asks for the list to be saved. -/
theorem run_saveit (h : gl.Sound) (call : GrouplistCall) (hchange : (call.run gl).availability ≠ gl.availability) :
    (call.run gl).saveit = true := by
  by_contra hsaveit
  refine hchange (availability_ext (run_sound h call) (fun s n => ?_) fun s n d => ?_)
  · cases call with
    | addgroup serverid name =>
      have hhas := not_not.mp (not_or.mp (mt addgroup_saveit.mpr hsaveit)).2
      refine has_addgroup.trans (or_iff_right_of_imp ?_)
      rintro ⟨rfl, rfl⟩
      exact hhas
    | addgroupdesc serverid name desc => exact has_addgroupdesc
    | flushserver serverid =>
      refine (has_flushserver h).trans (and_iff_left_of_imp fun hs => ?_)
      rintro rfl
      exact hsaveit (flushserver_saveit (Or.inr (Or.inl ⟨n, hs⟩)))
    | setDate serverid date => exact at_congr setDate_groups
  · rw [descriptions_eq_some h]
    cases call with
    | addgroup serverid name => exact describes_addgroup
    | addgroupdesc serverid name desc =>
      have hdesc := not_not.mp (not_or.mp (mt (addgroupdesc_saveit h).mpr hsaveit)).2
      refine (describes_addgroupdesc h).trans ?_
      split
      · next hx =>
        obtain ⟨rfl, rfl⟩ := hx
        constructor
        · rintro rfl
          exact hdesc
        · obtain ⟨e, he, hkey, hdesc⟩ := hdesc
          rintro ⟨e', he', hkey', hd⟩
          rw [SortedMap.eq_of_mem he' he (hkey'.trans hkey.symm)] at hd
          exact (h.group e he).descriptions.once hd hdesc
      · exact Iff.rfl
    | flushserver serverid =>
      refine (describes_flushserver h).trans (and_iff_left_of_imp fun hs => ?_)
      rintro rfl
      exact hsaveit (flushserver_saveit (Or.inr (Or.inr ⟨n, d, hs⟩)))
    | setDate serverid date => exact at_congr setDate_groups

/-- A run of calls. -/
theorem runs_refines : ∀ (calls : List GrouplistCall) {gl : Grouplist}, gl.Sound →
    (GrouplistCall.runs calls gl).Sound ∧
      (GrouplistCall.runs calls gl).availability = GrouplistCall.acts calls gl.availability
  | [], _, h => ⟨h, rfl⟩
  | call :: calls, gl, h => by
    obtain ⟨hsound, hacts⟩ := runs_refines calls (run_sound h call)
    exact ⟨hsound, by rw [GrouplistCall.acts, List.foldl_cons, ← run_availability h call]; exact hacts⟩

/-- The list without a server: nothing of it is left, neither as a server of a group nor of a description, and
    the data of the others is as it was. -/
structure Flushed (s : UInt64) (gl gl' : Grouplist) : Prop where
  without : gl'.availability.Without s
  serverInfo : ∀ e ∈ gl'.serverInfo, e.1 ≠ s
  serverids : ∀ e ∈ gl'.groups, s ∉ e.2.serverids ∧ ∀ gd ∈ e.2.servergroups, s ∉ gd.2.serverids
  listed : ∀ e ∈ gl'.groups, e.2.Listed
  same : ∀ t, t ≠ s → gl'.availability.SameAt t gl.availability
  sameInfo : ∀ t, t ≠ s → gl'.serverInfo.find? t = gl.serverInfo.find? t

theorem flushserver_availability (h : gl.Sound) : (gl.flushserver s).availability = gl.availability.flushserver s :=
  run_availability h (.flushserver s)

theorem flushserver_flushed (h : gl.Sound) : Flushed s gl (gl.flushserver s) where
  without := by
    rw [flushserver_availability h]
    exact Availability.flushserver_without
  serverInfo e he := (SortedMap.mem_erase.mp he).2
  serverids e he := by
    refine ⟨fun hs => ((has_flushserver h).mp ⟨e, he, rfl, hs⟩).2 rfl, fun gd hgd hs => ?_⟩
    exact ((describes_flushserver h).mp ⟨e, he, rfl, gd, hgd, rfl, hs⟩).2 rfl
  listed e he := ((flushserver_sound h).group e he).listed
  same t ht := by
    rw [flushserver_availability h]
    exact Availability.flushserver_sameAt ht
  sameInfo t ht := SortedMap.find?_congr fun x hx => SortedMap.mem_erase.trans (and_iff_left fun h => ht (hx.symm.trans h))

end Grouplist

/-- Whatever the group list was loaded from and whatever calls were made, it is sound, it says what the calls make
    of what was loaded, a call that changes what it says asks for it to be saved, and `flushserver` leaves nothing
    of the server and everything of the others. -/
theorem grouplist_refines (hasserver : UInt64 → Bool) (filename : Text) (file : Option Text) (calls : List GrouplistCall) :
    (GrouplistCall.runs calls (Grouplist.load hasserver filename file)).Sound ∧
    (GrouplistCall.runs calls (Grouplist.load hasserver filename file)).availability =
      GrouplistCall.acts calls (Grouplist.load hasserver filename file).availability ∧
    (∀ call : GrouplistCall, (call.run (GrouplistCall.runs calls (Grouplist.load hasserver filename file))).availability ≠
        (GrouplistCall.runs calls (Grouplist.load hasserver filename file)).availability →
      (call.run (GrouplistCall.runs calls (Grouplist.load hasserver filename file))).saveit = true) ∧
    ∀ s, Grouplist.Flushed s (GrouplistCall.runs calls (Grouplist.load hasserver filename file))
      ((GrouplistCall.runs calls (Grouplist.load hasserver filename file)).flushserver s) := by
  obtain ⟨hsound, hacts⟩ := Grouplist.runs_refines calls (@Grouplist.load_sound hasserver filename file)
  exact ⟨hsound, hacts, Grouplist.run_saveit hsound, fun s => Grouplist.flushserver_flushed hsound⟩

end Nget

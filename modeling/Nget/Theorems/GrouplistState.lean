import Nget.Grouplist
import Mathlib

/-! The group list as a relation between servers and groups, and a map from a server and a group to the server's
    description of it. What a group's descriptions say is `Describes`; a call changes it at the server it is
    for, and keeps the descriptions of a group `Keyed` and the server in one of them. -/

namespace Nget
open CString

/-- The descriptions of a group, by what they say. -/
abbrev Servergroups := SortedMap Text ServerGroupDescription

namespace Servergroups

/-- The server is in the description of this key. -/
def Describes (sgs : Servergroups) (serverid : UInt64) (d : Text) : Prop := ∃ e ∈ sgs, e.1 = d ∧ serverid ∈ e.2.serverids

/-- A description is found under what it says, and has a server. -/
structure Keyed (sgs : Servergroups) : Prop where
  key : ∀ e ∈ sgs, cstr e.2.description = e.1
  served : ∀ e ∈ sgs, ∃ serverid, serverid ∈ e.2.serverids

/-- `Keyed`, and a server is in one description at most. -/
structure Sound (sgs : Servergroups) : Prop extends Keyed sgs where
  once : ∀ {serverid d d'}, Describes sgs serverid d → Describes sgs serverid d' → d = d'

variable {sgs : Servergroups} {serverid s : UInt64} {d desc : Text} {si : Text × ServerGroupDescription}

theorem describes_of_mem (hsi : si ∈ sgs) : Describes sgs s si.1 ↔ s ∈ si.2.serverids := by
  constructor
  · rintro ⟨e, he, hkey, hs⟩
    rwa [← SortedMap.eq_of_mem he hsi hkey]
  · exact fun hs => ⟨si, hsi, rfl, hs⟩

theorem not_describes_empty : ¬Describes ∅ s d := fun ⟨_, he, _⟩ => SortedMap.not_mem_empty he

theorem sound_empty : Sound ∅ where
  key _ he := absurd he SortedMap.not_mem_empty
  served _ he := absurd he SortedMap.not_mem_empty
  once h := absurd h not_describes_empty

/-! ### A server taken out of a description -/

theorem mem_eraseServer {e : Text × ServerGroupDescription} :
    e ∈ GroupAvailability.eraseServer sgs serverid si ↔ e ∈ sgs ∧ e.1 ≠ si.1 ∨
      e = (si.1, { si.2 with serverids := si.2.serverids.erase serverid }) ∧ ∃ s, s ∈ e.2.serverids := by
  unfold GroupAvailability.eraseServer
  dsimp only
  split
  · next hempty =>
    rw [SortedMap.mem_erase]
    constructor
    · exact Or.inl
    · rintro (h | ⟨rfl, s, hs⟩)
      · exact h
      · exact absurd hs (SortedSet.isEmpty_iff.mp hempty s)
  · next hempty =>
    obtain ⟨s, hs⟩ : ∃ s, s ∈ si.2.serverids.erase serverid := by
      by_contra hnone
      exact hempty (SortedSet.isEmpty_iff.mpr fun s hs => hnone ⟨s, hs⟩)
    rw [SortedMap.mem_assign]
    constructor
    · rintro (rfl | h)
      · exact Or.inr ⟨rfl, s, hs⟩
      · exact Or.inl h
    · rintro (h | ⟨h, -⟩)
      · exact Or.inr h
      · exact Or.inl h

theorem describes_eraseServer (hsi : si ∈ sgs) : Describes (GroupAvailability.eraseServer sgs serverid si) s d ↔
    Describes sgs s d ∧ ¬(s = serverid ∧ d = si.1) := by
  constructor
  · rintro ⟨e, he, rfl, hs⟩
    rcases mem_eraseServer.mp he with ⟨he, hne⟩ | ⟨rfl, -⟩
    · exact ⟨⟨e, he, rfl, hs⟩, fun h => hne h.2⟩
    · have hs := SortedSet.mem_erase.mp hs
      exact ⟨⟨si, hsi, rfl, hs.1⟩, fun h => hs.2 h.1⟩
  · rintro ⟨⟨e, he, rfl, hs⟩, hnot⟩
    by_cases hkey : e.1 = si.1
    · have heq := SortedMap.eq_of_mem he hsi hkey
      subst heq
      have hs : s ∈ e.2.serverids.erase serverid := SortedSet.mem_erase.mpr ⟨hs, fun h => hnot ⟨h, rfl⟩⟩
      exact ⟨_, mem_eraseServer.mpr (Or.inr ⟨rfl, s, hs⟩), rfl, hs⟩
    · exact ⟨e, mem_eraseServer.mpr (Or.inl ⟨he, hkey⟩), rfl, hs⟩

theorem Keyed.eraseServer (h : Keyed sgs) (hsi : si ∈ sgs) : Keyed (GroupAvailability.eraseServer sgs serverid si) where
  key e he := by
    rcases mem_eraseServer.mp he with ⟨he, -⟩ | ⟨rfl, -⟩
    · exact h.key e he
    · exact h.key si hsi
  served e he := by
    rcases mem_eraseServer.mp he with ⟨he, -⟩ | ⟨-, hs⟩
    · exact h.served e he
    · exact hs

/-! ### A server put into a description -/

/-- The description of this text with the server in it, which may be a new one. -/
def joined (sgs : Servergroups) (serverid : UInt64) (desc : Text) : ServerGroupDescription :=
  match sgs.find? (cstr desc) with
  | some di => { di.2 with serverids := di.2.serverids.insert serverid }
  | none => ⟨desc, (∅ : SortedSet UInt64).insert serverid⟩

/-- The server put into the description of this text. -/
def insertServer (sgs : Servergroups) (serverid : UInt64) (desc : Text) : Servergroups :=
  sgs.assign (cstr desc) (joined sgs serverid desc)

theorem mem_joined : s ∈ (joined sgs serverid desc).serverids ↔ s = serverid ∨ Describes sgs s (cstr desc) := by
  unfold joined
  cases hfind : sgs.find? (cstr desc) with
  | some di =>
    obtain ⟨hdi, hkey⟩ := SortedMap.find?_eq_some_iff.mp hfind
    rw [← hkey, describes_of_mem hdi]
    exact SortedSet.mem_insert
  | none =>
    have hnone : ¬Describes sgs s (cstr desc) := fun ⟨e, he, hkey, _⟩ => SortedMap.find?_eq_none_iff.mp hfind e he hkey
    simp [hnone]

theorem cstr_joined (h : Keyed sgs) : cstr (joined sgs serverid desc).description = cstr desc := by
  unfold joined
  cases hfind : sgs.find? (cstr desc) with
  | some di =>
    obtain ⟨hdi, hkey⟩ := SortedMap.find?_eq_some_iff.mp hfind
    exact (h.key di hdi).trans hkey
  | none => rfl

theorem mem_insertServer {e : Text × ServerGroupDescription} : e ∈ insertServer sgs serverid desc ↔
    e = (cstr desc, joined sgs serverid desc) ∨ e ∈ sgs ∧ e.1 ≠ cstr desc := SortedMap.mem_assign

theorem describes_insertServer : Describes (insertServer sgs serverid desc) s d ↔
    s = serverid ∧ d = cstr desc ∨ Describes sgs s d := by
  constructor
  · rintro ⟨e, he, rfl, hs⟩
    rcases mem_insertServer.mp he with rfl | ⟨he, -⟩
    · exact (mem_joined.mp hs).imp_left fun h => ⟨h, rfl⟩
    · exact Or.inr ⟨e, he, rfl, hs⟩
  · have hjoined : ∀ {s}, s = serverid ∨ Describes sgs s (cstr desc) →
      Describes (insertServer sgs serverid desc) s (cstr desc) :=
      fun h => ⟨_, mem_insertServer.mpr (Or.inl rfl), rfl, mem_joined.mpr h⟩
    rintro (⟨rfl, rfl⟩ | h)
    · exact hjoined (Or.inl rfl)
    · by_cases hd : d = cstr desc
      · subst hd
        exact hjoined (Or.inr h)
      · obtain ⟨e, he, rfl, hs⟩ := h
        exact ⟨e, mem_insertServer.mpr (Or.inr ⟨he, hd⟩), rfl, hs⟩

theorem Keyed.insertServer (h : Keyed sgs) : Keyed (insertServer sgs serverid desc) where
  key e he := by
    rcases mem_insertServer.mp he with rfl | ⟨he, -⟩
    · exact cstr_joined h
    · exact h.key e he
  served e he := by
    rcases mem_insertServer.mp he with rfl | ⟨he, -⟩
    · exact ⟨serverid, mem_joined.mpr (Or.inl rfl)⟩
    · exact h.served e he

end Servergroups

namespace GroupAvailability
open Servergroups
variable {g : GroupAvailability} {serverid s : UInt64} {d desc : Text} {si : Text × ServerGroupDescription}

theorem findServer_eq_some (h : g.findServer serverid = some si) : si ∈ g.servergroups ∧ serverid ∈ si.2.serverids :=
  ⟨List.mem_of_find?_eq_some h, by simpa using List.find?_some h⟩

theorem findServer_eq_none (h : g.findServer serverid = none) : ¬Describes g.servergroups serverid d := by
  rintro ⟨e, he, -, hs⟩
  exact absurd hs (by simpa using List.find?_eq_none.mp h e he)

/-- The description that has a server is the one it is described by. -/
theorem findServer_key (h : Sound g.servergroups) : (g.findServer serverid).map (·.1) = some d ↔
    Describes g.servergroups serverid d := by
  cases hfind : g.findServer serverid with
  | none => exact ⟨fun h => absurd h (by simp), fun h => absurd h (findServer_eq_none hfind)⟩
  | some si =>
    obtain ⟨hsi, hs⟩ := findServer_eq_some hfind
    have hdesc : Describes g.servergroups serverid si.1 := (describes_of_mem hsi).mpr hs
    rw [Option.map_some, Option.some_inj]
    constructor
    · rintro rfl
      exact hdesc
    · exact fun h' => h.once hdesc h'

/-- The descriptions without the server. -/
def withoutServer (g : GroupAvailability) (serverid : UInt64) : Servergroups :=
  (g.findServer serverid).elim g.servergroups (eraseServer g.servergroups serverid)

theorem keyed_withoutServer (h : Keyed g.servergroups) : Keyed (g.withoutServer serverid) := by
  unfold withoutServer
  cases hfind : g.findServer serverid with
  | none => exact h
  | some si => exact h.eraseServer (findServer_eq_some hfind).1

theorem describes_withoutServer (h : Sound g.servergroups) : Describes (g.withoutServer serverid) s d ↔
    Describes g.servergroups s d ∧ s ≠ serverid := by
  unfold withoutServer
  cases hfind : g.findServer serverid with
  | none =>
    refine (and_iff_left_of_imp fun hd => ?_).symm
    rintro rfl
    exact findServer_eq_none hfind hd
  | some si =>
    obtain ⟨hsi, hs⟩ := findServer_eq_some hfind
    rw [Option.elim_some, describes_eraseServer hsi]
    refine and_congr_right fun hd => ⟨fun hnot hss => ?_, fun hne hss => hne hss.1⟩
    subst hss
    exact hnot ⟨rfl, h.once hd ((describes_of_mem hsi).mpr hs)⟩

/-- Another description than the server's is the same without the server. -/
theorem find?_withoutServer (hne : (g.findServer serverid).map (·.1) ≠ some d) :
    (g.withoutServer serverid).find? d = g.servergroups.find? d := by
  unfold withoutServer
  cases hfind : g.findServer serverid with
  | none => rfl
  | some si =>
    rw [hfind, Option.map_some, ne_eq, Option.some_inj] at hne
    refine SortedMap.find?_congr fun e he => ?_
    rw [Option.elim_some, mem_eraseServer]
    constructor
    · rintro (h | ⟨rfl, -⟩)
      · exact h.1
      · exact absurd he hne
    · exact fun h => Or.inl ⟨h, fun heq => hne (heq.symm.trans he)⟩

/-- A server that has the description already. -/
theorem addserverdescription_same (h : (g.findServer serverid).map (·.1) = some (cstr desc)) :
    g.addserverdescription serverid desc = (false, g) := by
  obtain ⟨si, hsi, hkey⟩ := Option.map_eq_some_iff.mp h
  have hdi : g.servergroups.find? (cstr desc) = some si :=
    SortedMap.find?_eq_some_iff.mpr ⟨(findServer_eq_some hsi).1, hkey⟩
  unfold addserverdescription
  rw [hsi, hdi]
  simp

/-- Otherwise the server is taken out of its description and put into the new one. -/
theorem addserverdescription_other (h : (g.findServer serverid).map (·.1) ≠ some (cstr desc)) :
    g.addserverdescription serverid desc =
      (true, { g with servergroups := insertServer (g.withoutServer serverid) serverid desc }) := by
  have hfind := find?_withoutServer h
  have hnot : ¬((g.findServer serverid).isSome ∧
    (g.findServer serverid).map (·.1) = (g.servergroups.find? (cstr desc)).map (·.1)) := by
    rintro ⟨hsome, heq⟩
    obtain ⟨si, hsi⟩ := Option.isSome_iff_exists.mp hsome
    rw [hsi, Option.map_some, eq_comm, Option.map_eq_some_iff] at heq
    obtain ⟨di, hdi, hkey⟩ := heq
    rw [hsi, Option.map_some, ← hkey, (SortedMap.find?_eq_some_iff.mp hdi).2] at h
    exact h rfl
  unfold addserverdescription
  simp only [Bool.and_eq_true, decide_eq_true_eq]
  rw [if_neg hnot]
  refine congrArg _ (congrArg (fun servergroups => { g with servergroups }) ?_)
  unfold insertServer joined
  rw [hfind]
  cases hdi : g.servergroups.find? (cstr desc) with
  | some di =>
    dsimp only
    rw [(SortedMap.find?_eq_some_iff.mp hdi).2]
    unfold withoutServer
    cases g.findServer serverid <;> rfl
  | none =>
    unfold SortedMap.insertNew
    rw [hdi] at hfind
    unfold withoutServer at hfind ⊢
    cases hsi : g.findServer serverid with
    | some si =>
      rw [hsi] at hfind
      dsimp only [Option.elim_some] at hfind ⊢
      rw [hfind]
    | none =>
      dsimp only
      rw [hdi]
      rfl

/-- Whether it changed anything. -/
theorem addserverdescription_fst (h : Sound g.servergroups) :
    (g.addserverdescription serverid desc).1 = true ↔ ¬Describes g.servergroups serverid (cstr desc) := by
  rw [← findServer_key h]
  by_cases hsame : (g.findServer serverid).map (·.1) = some (cstr desc)
  · rw [addserverdescription_same hsame]
    simp [hsame]
  · rw [addserverdescription_other hsame]
    simp [hsame]

theorem addserverdescription_groupname : (g.addserverdescription serverid desc).2.groupname = g.groupname := by
  by_cases hsame : (g.findServer serverid).map (·.1) = some (cstr desc)
  · rw [addserverdescription_same hsame]
  · rw [addserverdescription_other hsame]

theorem addserverdescription_serverids : (g.addserverdescription serverid desc).2.serverids = g.serverids := by
  by_cases hsame : (g.findServer serverid).map (·.1) = some (cstr desc)
  · rw [addserverdescription_same hsame]
  · rw [addserverdescription_other hsame]

/-- The server has the new description, and the others have theirs. -/
theorem describes_addserverdescription (h : Sound g.servergroups) :
    Describes (g.addserverdescription serverid desc).2.servergroups s d ↔
      if s = serverid then d = cstr desc else Describes g.servergroups s d := by
  by_cases hsame : (g.findServer serverid).map (·.1) = some (cstr desc)
  · rw [addserverdescription_same hsame]
    have hdesc := (findServer_key h).mp hsame
    split
    · next hs =>
      subst hs
      constructor
      · exact fun hd => h.once hd hdesc
      · rintro rfl
        exact hdesc
    · exact Iff.rfl
  · rw [addserverdescription_other hsame]
    dsimp only
    rw [describes_insertServer, describes_withoutServer h]
    split
    · next hs => simp [hs]
    · next hs => simp [hs]

theorem sound_addserverdescription (h : Sound g.servergroups) :
    Sound (g.addserverdescription serverid desc).2.servergroups where
  toKeyed := by
    by_cases hsame : (g.findServer serverid).map (·.1) = some (cstr desc)
    · rw [addserverdescription_same hsame]
      exact h.toKeyed
    · rw [addserverdescription_other hsame]
      exact (keyed_withoutServer h.toKeyed).insertServer
  once hd hd' := by
    rw [describes_addserverdescription h] at hd hd'
    split at hd
    · next hs =>
      rw [if_pos hs] at hd'
      rw [hd, hd']
    · next hs =>
      rw [if_neg hs] at hd'
      exact h.once hd hd'

end GroupAvailability
/-! ### A server flushed -/

namespace Servergroups
variable {serverid s : UInt64} {d : Text}

/-- The descriptions, without the server in any of those given. -/
def eraseServers (serverid : UInt64) (gds : List (Text × ServerGroupDescription)) (sgs : Servergroups) : Servergroups :=
  gds.foldl (fun sgs gd => GroupAvailability.eraseServer sgs serverid gd) sgs

theorem flushDescriptions_eq : ∀ (gds : List (Text × ServerGroupDescription)) (sgs : Servergroups) (countds : Nat),
    Grouplist.flushDescriptions serverid gds sgs countds =
      (eraseServers serverid gds sgs, countds + gds.countP fun gd => serverid ∈ gd.2.serverids)
  | [], _, _ => rfl
  | gd :: gds, sgs, countds => by
    rw [Grouplist.flushDescriptions, flushDescriptions_eq gds, List.countP_cons, eraseServers, eraseServers, List.foldl_cons]
    refine congrArg (Prod.mk _) ?_
    by_cases hs : serverid ∈ gd.2.serverids
    · simp only [hs, decide_true, if_true]
      omega
    · simp only [hs, decide_false, if_false, Bool.false_eq_true]
      omega

/-- The entries are still there when it is their turn, as those before them have other keys. -/
theorem eraseServers_spec : ∀ {gds : List (Text × ServerGroupDescription)} {sgs : Servergroups}, (∀ gd ∈ gds, gd ∈ sgs) →
    gds.Pairwise (fun a b => a.1 < b.1) → Keyed sgs → Keyed (eraseServers serverid gds sgs) ∧
      ∀ s d, Describes (eraseServers serverid gds sgs) s d ↔ Describes sgs s d ∧ ¬(s = serverid ∧ ∃ gd ∈ gds, d = gd.1)
  | [], sgs, _, _, hkeyed => ⟨hkeyed, fun s d => by simp [eraseServers]⟩
  | gd :: gds, sgs, hmem, hsorted, hkeyed => by
    obtain ⟨hhead, htail⟩ := List.pairwise_cons.mp hsorted
    have hgd : gd ∈ sgs := hmem gd List.mem_cons_self
    have hrest : ∀ e ∈ gds, e ∈ GroupAvailability.eraseServer sgs serverid gd := fun e he =>
      mem_eraseServer.mpr (Or.inl ⟨hmem e (List.mem_cons_of_mem _ he), (hhead e he).ne'⟩)
    obtain ⟨hkeyed', hdesc⟩ := eraseServers_spec hrest htail (hkeyed.eraseServer hgd)
    rw [eraseServers, List.foldl_cons, ← eraseServers]
    refine ⟨hkeyed', fun s d => ?_⟩
    rw [hdesc, describes_eraseServer hgd]
    simp only [List.mem_cons, exists_eq_or_imp]
    rw [and_assoc, and_or_left, not_or]

end Servergroups

namespace GroupAvailability
open Servergroups
variable {g : GroupAvailability} {serverid s : UInt64} {d : Text}

/-- The group without the server. -/
def flushed (serverid : UInt64) (g : GroupAvailability) : GroupAvailability :=
  { g with
    serverids := g.serverids.erase serverid
    servergroups := eraseServers serverid g.servergroups.entries g.servergroups }

theorem describes_flushed (h : Keyed g.servergroups) : Describes (g.flushed serverid).servergroups s d ↔
    Describes g.servergroups s d ∧ s ≠ serverid := by
  refine ((eraseServers_spec (fun _ => id) g.servergroups.sorted h).2 s d).trans (and_congr_right fun hd => ?_)
  obtain ⟨e, he, rfl, -⟩ := hd
  exact not_congr (and_iff_left ⟨e, he, rfl⟩)

theorem sound_flushed (h : Sound g.servergroups) : Sound (g.flushed serverid).servergroups where
  toKeyed := (eraseServers_spec (fun _ => id) g.servergroups.sorted h.toKeyed).1
  once hd hd' := h.once ((describes_flushed h.toKeyed).mp hd).1 ((describes_flushed h.toKeyed).mp hd').1

/-- Some server has the group, or describes it. -/
def Listed (g : GroupAvailability) : Prop := ∃ s, s ∈ g.serverids ∨ ∃ d, Describes g.servergroups s d

theorem listed_iff (h : Keyed g.servergroups) : g.Listed ↔ ¬(g.serverids.isEmpty && g.servergroups.isEmpty) = true := by
  rw [Bool.and_eq_true, SortedSet.isEmpty_iff, SortedMap.isEmpty_iff]
  constructor
  · rintro ⟨s, hs | ⟨d, e, he, -⟩⟩ ⟨hids, hsgs⟩
    · exact hids s hs
    · exact hsgs e he
  · intro hnot
    by_contra hnone
    refine hnot ⟨fun s hs => hnone ⟨s, Or.inl hs⟩, fun e he => ?_⟩
    obtain ⟨s, hs⟩ := h.served e he
    exact hnone ⟨s, Or.inr ⟨e.1, e, he, rfl, hs⟩⟩

end GroupAvailability

namespace Grouplist
open Servergroups GroupAvailability
variable {serverid : UInt64}

/-- A group put back without the server, or taken out if nobody is left that has it. -/
def flushGroup (serverid : UInt64) (groups : SortedMap Text GroupAvailability) (gi : Text × GroupAvailability) :
    SortedMap Text GroupAvailability :=
  let group := gi.2.flushed serverid
  if group.serverids.isEmpty && group.servergroups.isEmpty then groups.erase gi.1 else groups.assign gi.1 group

theorem flushGroups_eq : ∀ (gis : List (Text × GroupAvailability))
    (groups : SortedMap Text GroupAvailability) (countgs countds : Nat),
    flushGroups serverid gis groups countgs countds = (gis.foldl (flushGroup serverid) groups,
      countgs + gis.countP (fun gi => serverid ∈ gi.2.serverids),
      countds + (gis.map fun gi => gi.2.servergroups.entries.countP fun gd => serverid ∈ gd.2.serverids).sum)
  | [], _, _, _ => rfl
  | (name, group) :: gis, groups, countgs, countds => by
    rw [flushGroups, flushDescriptions_eq]
    dsimp only
    rw [flushGroups_eq gis, List.foldl_cons, List.countP_cons, List.map_cons, List.sum_cons]
    refine congrArg (Prod.mk _) (Prod.ext ?_ (by dsimp only; omega))
    by_cases hs : serverid ∈ group.serverids
    · simp only [hs, decide_true, if_true]
      omega
    · simp only [hs, decide_false, if_false, Bool.false_eq_true]
      omega

theorem mem_flushGroup {groups : SortedMap Text GroupAvailability} {gi x : Text × GroupAvailability}
    (h : Keyed gi.2.servergroups) :
    x ∈ flushGroup serverid groups gi ↔ x ∈ groups ∧ x.1 ≠ gi.1 ∨ x = (gi.1, gi.2.flushed serverid) ∧ x.2.Listed := by
  have hkeyed : Keyed (gi.2.flushed serverid).servergroups := (eraseServers_spec (fun _ => id) gi.2.servergroups.sorted h).1
  unfold flushGroup
  dsimp only
  split
  · next hempty =>
    rw [SortedMap.mem_erase]
    constructor
    · exact Or.inl
    · rintro (hx | ⟨rfl, hlisted⟩)
      · exact hx
      · exact absurd hempty ((listed_iff hkeyed).mp hlisted)
  · next hlisted =>
    rw [SortedMap.mem_assign]
    constructor
    · rintro (rfl | hx)
      · exact Or.inr ⟨rfl, (listed_iff hkeyed).mpr hlisted⟩
      · exact Or.inl hx
    · rintro (hx | ⟨hx, -⟩)
      · exact Or.inr hx
      · exact Or.inl hx

/-- The groups that are left when the server is taken out of those given. -/
theorem mem_foldl_flushGroup {x : Text × GroupAvailability} :
    ∀ {gis : List (Text × GroupAvailability)} {groups : SortedMap Text GroupAvailability},
      gis.Pairwise (fun a b => a.1 < b.1) → (∀ gi ∈ gis, Keyed gi.2.servergroups) →
      (x ∈ gis.foldl (flushGroup serverid) groups ↔ (x ∈ groups ∧ ∀ gi ∈ gis, x.1 ≠ gi.1) ∨
        ∃ gi ∈ gis, x = (gi.1, gi.2.flushed serverid) ∧ x.2.Listed)
  | [], _, _, _ => by simp
  | gi :: gis, groups, hsorted, hkeyed => by
    obtain ⟨hhead, htail⟩ := List.pairwise_cons.mp hsorted
    rw [List.foldl_cons, mem_foldl_flushGroup htail fun gi hgi => hkeyed gi (List.mem_cons_of_mem _ hgi),
      mem_flushGroup (hkeyed gi List.mem_cons_self), List.forall_mem_cons]
    simp only [List.mem_cons, exists_eq_or_imp]
    have hnew : x = (gi.1, gi.2.flushed serverid) ∧ x.2.Listed → ∀ gi' ∈ gis, x.1 ≠ gi'.1 := by
      rintro ⟨rfl, -⟩ gi' hgi'
      exact (hhead gi' hgi').ne
    tauto

end Grouplist
/-! ### What a call leaves of the groups -/

/-- What holds of every group of a list. -/
structure GroupAvailability.Sound (g : GroupAvailability) : Prop where
  descriptions : Servergroups.Sound g.servergroups
  listed : g.Listed

namespace Grouplist
open Servergroups GroupAvailability

/-- A group is found under its name, its descriptions are sound, and it has a server or a description. -/
structure Sound (gl : Grouplist) : Prop where
  name : ∀ e ∈ gl.groups, cstr e.2.groupname = e.1
  group : ∀ e ∈ gl.groups, e.2.Sound

/-- The group of this name is there, and `p` holds of it. -/
def At (gl : Grouplist) (n : Text) (p : GroupAvailability → Prop) : Prop := ∃ e ∈ gl.groups, e.1 = n ∧ p e.2

/-- The server has the group. -/
def Has (gl : Grouplist) (s : UInt64) (n : Text) : Prop := gl.At n fun g => s ∈ g.serverids

/-- The server describes the group so. -/
def Describes (gl : Grouplist) (s : UInt64) (n d : Text) : Prop := gl.At n fun g => Servergroups.Describes g.servergroups s d

variable {gl gl' : Grouplist} {serverid s : UInt64} {name n d desc : Text} {g : GroupAvailability}
    {p : GroupAvailability → Prop}

theorem at_assign (h : gl'.groups = gl.groups.assign (cstr name) g) :
    gl'.At n p ↔ if n = cstr name then p g else gl.At n p := by
  unfold At
  simp only [h, SortedMap.mem_assign]
  split
  · next hn =>
    constructor
    · rintro ⟨e, rfl | ⟨-, hne⟩, hkey, hp⟩
      · exact hp
      · exact absurd (hkey.trans hn) hne
    · exact fun hp => ⟨(cstr name, g), Or.inl rfl, hn.symm, hp⟩
  · next hn =>
    constructor
    · rintro ⟨e, rfl | ⟨he, -⟩, hkey, hp⟩
      · exact absurd hkey.symm hn
      · exact ⟨e, he, hkey, hp⟩
    · rintro ⟨e, he, rfl, hp⟩
      exact ⟨e, Or.inr ⟨he, hn⟩, rfl, hp⟩

/-- What a new group does not have, the group of a name has if it is there. -/
theorem at_findGroup (hnew : ¬p ⟨name, ∅, ∅⟩) : gl.At (cstr name) p ↔ p (gl.findGroup name) := by
  unfold findGroup
  cases hfind : gl.groups.find? (cstr name) with
  | some e =>
    obtain ⟨he, hkey⟩ := SortedMap.find?_eq_some_iff.mp hfind
    constructor
    · rintro ⟨e', he', hkey', hp⟩
      rwa [← SortedMap.eq_of_mem he' he (hkey'.trans hkey.symm)]
    · exact fun hp => ⟨e, he, hkey, hp⟩
  | none =>
    constructor
    · rintro ⟨e, he, hkey, -⟩
      exact absurd hkey (SortedMap.find?_eq_none_iff.mp hfind e he)
    · exact fun hp => absurd hp hnew

theorem has_findGroup : gl.Has s (cstr name) ↔ s ∈ (gl.findGroup name).serverids :=
  at_findGroup (p := fun g => s ∈ g.serverids) SortedSet.not_mem_empty

theorem describes_findGroup : gl.Describes s (cstr name) d ↔ Servergroups.Describes (gl.findGroup name).servergroups s d :=
  at_findGroup (p := fun g => Servergroups.Describes g.servergroups s d) not_describes_empty

theorem findGroup_descriptions (h : gl.Sound) : Servergroups.Sound (gl.findGroup name).servergroups := by
  unfold findGroup
  cases hfind : gl.groups.find? (cstr name) with
  | some e => exact (h.group e (SortedMap.find?_eq_some_iff.mp hfind).1).descriptions
  | none => exact sound_empty

theorem findGroup_groupname (h : gl.Sound) : cstr (gl.findGroup name).groupname = cstr name := by
  unfold findGroup
  cases hfind : gl.groups.find? (cstr name) with
  | some e =>
    obtain ⟨he, hkey⟩ := SortedMap.find?_eq_some_iff.mp hfind
    exact (h.name e he).trans hkey
  | none => rfl

theorem Sound.assign (h : gl.Sound) (hgl : gl'.groups = gl.groups.assign (cstr name) g) (hname : cstr g.groupname = cstr name)
    (hg : g.Sound) : gl'.Sound where
  name e he := by
    rcases SortedMap.mem_assign.mp (hgl ▸ he) with rfl | ⟨he, -⟩
    · exact hname
    · exact h.name e he
  group e he := by
    rcases SortedMap.mem_assign.mp (hgl ▸ he) with rfl | ⟨he, -⟩
    · exact hg
    · exact h.group e he

/-! #### `addgroup` -/

theorem addgroup_groups : (gl.addgroup serverid name).groups = gl.groups.assign (cstr name)
    { gl.findGroup name with serverids := (gl.findGroup name).serverids.insert serverid } := by
  unfold addgroup
  dsimp only
  split
  · next hmem =>
    have hsame : (gl.findGroup name).serverids.insert serverid = (gl.findGroup name).serverids := SortedSet.ext fun k => by
      rw [SortedSet.mem_insert]
      exact or_iff_right_of_imp fun hk => hk ▸ hmem
    rw [hsame]
  · rfl

theorem addgroup_sound (h : gl.Sound) : (gl.addgroup serverid name).Sound :=
  h.assign addgroup_groups (findGroup_groupname h)
    ⟨findGroup_descriptions h, serverid, Or.inl (SortedSet.mem_insert.mpr (Or.inl rfl))⟩

theorem has_addgroup : (gl.addgroup serverid name).Has s n ↔ s = serverid ∧ n = cstr name ∨ gl.Has s n := by
  refine (at_assign addgroup_groups).trans ?_
  split
  · next hn =>
    subst hn
    rw [has_findGroup, SortedSet.mem_insert]
    simp
  · next hn => simp [Has, hn]

theorem describes_addgroup : (gl.addgroup serverid name).Describes s n d ↔ gl.Describes s n d := by
  refine (at_assign addgroup_groups).trans ?_
  split
  · next hn =>
    subst hn
    exact describes_findGroup.symm
  · exact Iff.rfl

/-- A server that the group does not have is one to save. -/
theorem addgroup_saveit : (gl.addgroup serverid name).saveit = true ↔ gl.saveit = true ∨ ¬gl.Has serverid (cstr name) := by
  rw [has_findGroup]
  unfold addgroup
  dsimp only
  split
  · next hmem => simp [hmem]
  · next hmem => simp [hmem]

/-! #### `addgroupdesc` -/

theorem addgroupdesc_groups : (gl.addgroupdesc serverid name desc).groups =
    gl.groups.assign (cstr name) ((gl.findGroup name).addserverdescription serverid desc).2 := rfl

theorem addgroupdesc_sound (h : gl.Sound) : (gl.addgroupdesc serverid name desc).Sound := by
  have hdesc : Servergroups.Sound (gl.findGroup name).servergroups := findGroup_descriptions h
  refine h.assign addgroupdesc_groups ?_ ⟨sound_addserverdescription hdesc, serverid, Or.inr ⟨cstr desc, ?_⟩⟩
  · rw [addserverdescription_groupname, findGroup_groupname h]
  · rw [describes_addserverdescription hdesc, if_pos rfl]

theorem has_addgroupdesc : (gl.addgroupdesc serverid name desc).Has s n ↔ gl.Has s n := by
  refine (at_assign addgroupdesc_groups).trans ?_
  split
  · next hn =>
    subst hn
    rw [addserverdescription_serverids]
    exact has_findGroup.symm
  · exact Iff.rfl

theorem describes_addgroupdesc (h : gl.Sound) : (gl.addgroupdesc serverid name desc).Describes s n d ↔
    if s = serverid ∧ n = cstr name then d = cstr desc else gl.Describes s n d := by
  refine (at_assign addgroupdesc_groups).trans ?_
  by_cases hn : n = cstr name
  · subst hn
    rw [if_pos rfl, describes_addserverdescription (findGroup_descriptions h), describes_findGroup]
    simp
  · rw [if_neg hn, if_neg fun hs => hn hs.2]
    exact Iff.rfl

/-- A description that the server did not have is one to save. -/
theorem addgroupdesc_saveit (h : gl.Sound) : (gl.addgroupdesc serverid name desc).saveit = true ↔
    gl.saveit = true ∨ ¬gl.Describes serverid (cstr name) (cstr desc) := by
  rw [describes_findGroup, ← addserverdescription_fst (findGroup_descriptions h)]
  exact Bool.or_eq_true_iff

/-! #### `flushserver` -/

theorem flushserver_groups : (gl.flushserver serverid).groups = gl.groups.entries.foldl (flushGroup serverid) gl.groups := by
  unfold flushserver
  rw [flushGroups_eq]

/-- Each group is there without the server, if some other server has or describes it. -/
theorem mem_flushserver (h : gl.Sound) {x : Text × GroupAvailability} : x ∈ (gl.flushserver serverid).groups ↔
    ∃ e ∈ gl.groups, x = (e.1, e.2.flushed serverid) ∧ x.2.Listed := by
  rw [flushserver_groups, mem_foldl_flushGroup gl.groups.sorted fun e he => (h.group e he).descriptions.toKeyed]
  refine or_iff_right ?_
  rintro ⟨hx, hnot⟩
  exact hnot x hx rfl

theorem flushserver_sound (h : gl.Sound) : (gl.flushserver serverid).Sound where
  name e he := by
    obtain ⟨g, hg, rfl, -⟩ := (mem_flushserver h).mp he
    exact h.name g hg
  group e he := by
    obtain ⟨g, hg, rfl, hlisted⟩ := (mem_flushserver h).mp he
    exact ⟨sound_flushed (h.group g hg).descriptions, hlisted⟩

theorem has_flushserver (h : gl.Sound) : (gl.flushserver serverid).Has s n ↔ gl.Has s n ∧ s ≠ serverid := by
  constructor
  · rintro ⟨e, he, rfl, hs⟩
    obtain ⟨g, hg, rfl, -⟩ := (mem_flushserver h).mp he
    have hs := SortedSet.mem_erase.mp hs
    exact ⟨⟨g, hg, rfl, hs.1⟩, hs.2⟩
  · rintro ⟨⟨e, he, rfl, hs⟩, hne⟩
    have hs : s ∈ (e.2.flushed serverid).serverids := SortedSet.mem_erase.mpr ⟨hs, hne⟩
    exact ⟨_, (mem_flushserver h).mpr ⟨e, he, rfl, s, Or.inl hs⟩, rfl, hs⟩

theorem describes_flushserver (h : gl.Sound) : (gl.flushserver serverid).Describes s n d ↔ gl.Describes s n d ∧
    s ≠ serverid := by
  constructor
  · rintro ⟨e, he, rfl, hs⟩
    obtain ⟨g, hg, rfl, -⟩ := (mem_flushserver h).mp he
    have hs := (describes_flushed (h.group g hg).descriptions.toKeyed).mp hs
    exact ⟨⟨g, hg, rfl, hs.1⟩, hs.2⟩
  · rintro ⟨⟨e, he, rfl, hs⟩, hne⟩
    have hs : Servergroups.Describes (e.2.flushed serverid).servergroups s d :=
      (describes_flushed (h.group e he).descriptions.toKeyed).mpr ⟨hs, hne⟩
    exact ⟨_, (mem_flushserver h).mpr ⟨e, he, rfl, s, Or.inr ⟨d, hs⟩⟩, rfl, hs⟩

/-- Anything of the server's is one to save. -/
theorem flushserver_saveit (h : gl.saveit = true ∨ (∃ n, gl.Has serverid n) ∨ ∃ n d, gl.Describes serverid n d) :
    (gl.flushserver serverid).saveit = true := by
  unfold flushserver
  rw [flushGroups_eq]
  simp only [Nat.zero_add, Bool.or_eq_true, decide_eq_true_eq, ne_eq, List.countP_eq_zero, List.sum_eq_zero_iff,
    List.forall_mem_map]
  rcases h with h | ⟨-, e, he, -, hs⟩ | ⟨-, d, e, he, -, gd, hgd, -, hs⟩
  · exact Or.inl (Or.inl (Or.inl h))
  · exact Or.inl (Or.inr fun hnone => hnone e he hs)
  · exact Or.inr fun hnone => hnone e he gd hgd hs

end Grouplist
end Nget

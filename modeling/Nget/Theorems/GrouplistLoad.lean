import Nget.Theorems.CacheSave
import Nget.Theorems.GrouplistState

/-! What is read of a group list's file. A field has neither line ends nor NULs in it, the servers are
    configured ones, and a group is built by `addserverdescription`, so what is loaded is `Sound` and could have
    been saved (`Savable`). -/

namespace Nget
open CString

/-! ### Fields -/

theorem btoksLoop_oneLine {tok : Char} {max : Nat} {tokfinal : Bool} (htok : tok ≠ '\r' ∧ tok ≠ '\n') :
    ∀ (f : Text) (num : Nat), ∀ t ∈ (btoksLoop tok max tokfinal num f).2.1, ∀ c ∈ t, c ≠ '\r' ∧ c ≠ '\n'
  | [], num, t, ht, c, hc => by
    rw [btoksLoop, List.mem_singleton] at ht
    rw [ht] at hc
    cases hc
  | i :: f, num, t, ht, c, hc => by
    unfold btoksLoop at ht
    dsimp only at ht
    split at ht
    · rcases List.mem_cons.mp ht with rfl | ht
      · cases hc
      · exact btoksLoop_oneLine htok f (num + 1) t ht c hc
    · split at ht
      · exact btoksLoop_oneLine htok f (num + 1) t ht c hc
      · split at ht
        · exact btoksLoop_oneLine htok f num t ht c hc
        · next hcr =>
          split at ht
          · rw [List.mem_singleton] at ht
            rw [ht] at hc
            cases hc
          · next hlf =>
            have hi : i ≠ '\r' ∧ i ≠ '\n' := by
              simp only [Bool.and_eq_true, decide_eq_true_eq, not_and] at hcr hlf
              by_cases hit : i = tok
              · exact hit ▸ htok
              · exact ⟨hcr hit, hlf hit⟩
            have ih := @btoksLoop_oneLine tok max tokfinal htok f num
            split at ht
            · cases htoks : (btoksLoop tok max tokfinal num f).2.1 with
              | nil =>
                rw [htoks] at ht
                cases ht
              | cons u us =>
                rw [htoks, List.modifyHead_cons] at ht
                rw [htoks] at ih
                rcases List.mem_cons.mp ht with rfl | ht
                · rcases List.mem_cons.mp hc with rfl | hc
                  · exact hi
                  · exact ih u List.mem_cons_self c hc
                · exact ih t (List.mem_cons_of_mem _ ht) c hc
            · exact ih t ht c hc

/-- A field has no line end and no NUL in it. -/
theorem btoks_oneLine {max : Nat} {tokfinal : Bool} {f t : Text} (ht : t ∈ (btoks '\t' max tokfinal f).2.1) : OneLine t := by
  obtain ⟨u, hu, rfl⟩ := List.mem_map.mp ht
  intro c hc
  have hne := btoksLoop_oneLine (by decide) f 1 u hu c (cstr_subset hc)
  exact ⟨hne.1, hne.2, ne_nul_of_mem_cstr hc⟩

/-- If the tabs of the last field separate as well, no field has one. -/
theorem btoks_clean {f t : Text} (ht : t ∈ (btoks '\t' 2 true f).2.1) : Clean t := by
  have hline := btoks_oneLine ht
  rw [btoks_eq (by decide)] at ht
  obtain ⟨u, hu, rfl⟩ := List.mem_map.mp ht
  have htab := (mem_split (List.mem_of_mem_take hu)).1
  intro c hc
  exact ⟨fun h => htab (h ▸ cstr_subset hc), hline c hc⟩

theorem getD_of_mem {P : Text → Prop} {ts : List Text} {i : Nat} (hnil : P []) (h : ∀ t ∈ ts, P t) : P (ts.getD i []) := by
  rw [List.getD_eq_getElem?_getD]
  cases hi : ts[i]? with
  | none => exact hnil
  | some t => exact h t (List.mem_of_getElem? hi)

/-! ### What could have been saved -/

/-- The group's strings can stand in their fields, and its servers are configured. -/
structure GroupAvailability.Savable (hasserver : UInt64 → Bool) (g : GroupAvailability) : Prop where
  groupname : Clean g.groupname
  serverids : ∀ s ∈ g.serverids, hasserver s = true
  description : ∀ e ∈ g.servergroups, OneLine e.2.description
  described : ∀ {s d}, Servergroups.Describes g.servergroups s d → hasserver s = true

/-- A group while it is read. -/
structure GroupAvailability.Read (hasserver : UInt64 → Bool) (g : GroupAvailability) : Prop extends g.Savable hasserver where
  sound : Servergroups.Sound g.servergroups

namespace Servergroups
variable {sgs : Servergroups} {serverid : UInt64} {desc : Text}

theorem description_joined (h : ∀ e ∈ sgs, OneLine e.2.description) (hdesc : OneLine desc) :
    OneLine (joined sgs serverid desc).description := by
  unfold joined
  cases hfind : sgs.find? (cstr desc) with
  | some di => exact h di (SortedMap.find?_eq_some_iff.mp hfind).1
  | none => exact hdesc

end Servergroups

namespace GroupAvailability
open Servergroups
variable {hasserver : UInt64 → Bool} {g : GroupAvailability} {serverid : UInt64} {name desc : Text}

theorem description_withoutServer (h : ∀ e ∈ g.servergroups, OneLine e.2.description) :
    ∀ e ∈ g.withoutServer serverid, OneLine e.2.description := by
  unfold withoutServer
  cases hfind : g.findServer serverid with
  | none => exact h
  | some si =>
    intro e he
    rcases mem_eraseServer.mp he with ⟨he, -⟩ | ⟨rfl, -⟩
    · exact h e he
    · exact h si (findServer_eq_some hfind).1

theorem read_new (hname : Clean name) : Read hasserver ⟨name, ∅, ∅⟩ where
  groupname := hname
  serverids _ hs := absurd hs SortedSet.not_mem_empty
  description _ he := absurd he SortedMap.not_mem_empty
  described hd := absurd hd not_describes_empty
  sound := sound_empty

theorem Read.insert (h : Read hasserver g) (hserver : hasserver serverid = true) :
    Read hasserver { g with serverids := g.serverids.insert serverid } :=
  { h with
    serverids := fun s hs => by
      rcases SortedSet.mem_insert.mp hs with rfl | hs
      · exact hserver
      · exact h.serverids s hs }

theorem Read.addserverdescription (h : Read hasserver g) (hserver : hasserver serverid = true) (hdesc : OneLine desc) :
    Read hasserver (g.addserverdescription serverid desc).2 where
  groupname := by
    rw [addserverdescription_groupname]
    exact h.groupname
  serverids := by
    rw [addserverdescription_serverids]
    exact h.serverids
  description := by
    by_cases hsame : (g.findServer serverid).map (·.1) = some (cstr desc)
    · rw [addserverdescription_same hsame]
      exact h.description
    · rw [addserverdescription_other hsame]
      intro e he
      rcases mem_insertServer.mp he with rfl | ⟨he, -⟩
      · exact description_joined (description_withoutServer h.description) hdesc
      · exact description_withoutServer h.description e he
  described {s d} hd := by
    rw [describes_addserverdescription h.sound] at hd
    split at hd
    · next hs => exact hs ▸ hserver
    · exact h.described hd
  sound := sound_addserverdescription h.sound

end GroupAvailability
/-! ### What is read -/

namespace GrouplistReader
open GroupAvailability
variable {hasserver : UInt64 → Bool} {desc : Text}

theorem readServers_read : ∀ (cps : List Text) (r : GrouplistReader) (gd : GroupAvailability), Read hasserver gd →
    Read hasserver (readServers hasserver cps r gd).2
  | [], _, _, h => h
  | cp :: cps, r, gd, h => by
    unfold readServers
    dsimp only
    split
    · next hserver => exact readServers_read cps _ _ (h.insert hserver)
    · exact readServers_read cps _ _ h

theorem readDescriptionServers_read (hdesc : OneLine desc) : ∀ (cps : List Text) (r : GrouplistReader) (gd : GroupAvailability),
    Read hasserver gd → Read hasserver (readDescriptionServers hasserver desc cps r gd).2
  | [], _, _, h => h
  | cp :: cps, r, gd, h => by
    unfold readDescriptionServers
    dsimp only
    split
    · next hserver => exact readDescriptionServers_read hdesc cps _ _ (h.addserverdescription hserver hdesc)
    · exact readDescriptionServers_read hdesc cps _ _ h

theorem readDescriptions_read : ∀ (fuel : Nat) (r : GrouplistReader) (gd : GroupAvailability), Read hasserver gd →
    Read hasserver (readDescriptions hasserver fuel r gd).2
  | fuel, r, gd, h => by
    unfold readDescriptions
    dsimp only
    split
    · exact h
    · split
      · exact h
      · cases fuel with
        | zero => exact h
        | succ fuel =>
          dsimp only
          split
          · refine readDescriptions_read fuel _ _ (readDescriptionServers_read ?_ _ _ _ h)
            exact getD_of_mem (fun _ hc => by cases hc) fun t ht => btoks_oneLine ht
          · exact readDescriptions_read fuel _ _ h

/-- A group that is given has a server or a description. -/
theorem readGroupLoop_read {gd' : GroupAvailability} : ∀ (fuel : Nat) (r : GrouplistReader) (gd : Option GroupAvailability),
    (readGroupLoop hasserver fuel r gd).2 = .ok (some gd') → Read hasserver gd' ∧ gd'.Listed
  | fuel, r, gd, h => by
    unfold readGroupLoop at h
    split at h
    · cases gd <;> cases h
    · cases fuel with
      | zero => cases h
      | succ fuel =>
        dsimp only at h
        split at h
        · split at h
          · next hnonempty =>
            have hread : Read hasserver gd' := by
              cases h
              refine readDescriptions_read _ _ _ (readServers_read _ _ _ (read_new ?_))
              exact getD_of_mem (fun _ hc => by cases hc) fun t ht => btoks_clean ht
            refine ⟨hread, (listed_iff hread.sound.toKeyed).mpr ?_⟩
            cases h
            rw [Bool.and_eq_true]
            rintro ⟨hids, hsgs⟩
            rw [hids, hsgs] at hnonempty
            cases hnonempty
          · exact readGroupLoop_read fuel _ _ h
        · exact readGroupLoop_read fuel _ _ h

/-- What holds of every group of a list that is read. -/
def GroupRead (hasserver : UInt64 → Bool) (e : Text × GroupAvailability) : Prop :=
  cstr e.2.groupname = e.1 ∧ Read hasserver e.2 ∧ e.2.Listed

theorem insertNew_read {groups : SortedMap Text GroupAvailability} {ng : GroupAvailability}
    (h : ∀ e ∈ groups, GroupRead hasserver e) (hng : Read hasserver ng ∧ ng.Listed) :
    ∀ e ∈ groups.insertNew (cstr ng.groupname) ng, GroupRead hasserver e := by
  intro e he
  rcases SortedMap.mem_insertNew he with he | rfl
  · exact h e he
  · exact ⟨rfl, hng⟩

theorem readGroups_read : ∀ (fuel : Nat) (r : GrouplistReader) (groups : SortedMap Text GroupAvailability),
    (∀ e ∈ groups, GroupRead hasserver e) → ∀ e ∈ (readGroups hasserver fuel r groups).2.1, GroupRead hasserver e
  | fuel, r, groups, h => by
    unfold readGroups
    rcases hread : readGroup hasserver r with ⟨r', res⟩
    cases res with
    | error e => exact h
    | ok gd =>
      cases gd with
      | none => exact h
      | some ng =>
        have hng : Read hasserver ng ∧ ng.Listed := readGroupLoop_read _ r none (congrArg Prod.snd hread)
        cases fuel with
        | zero => exact insertNew_read h hng
        | succ fuel => exact readGroups_read fuel _ _ (insertNew_read h hng)

/-- A server's info as it could have been saved. -/
def ServerRead (hasserver : UInt64 → Bool) (e : UInt64 × GrouplistServerInfo) : Prop :=
  e.2.serverid = e.1 ∧ hasserver e.1 = true ∧ Clean e.2.date

theorem readServerInfo_read : ∀ (fuel : Nat) (r : GrouplistReader) (serverInfo : SortedMap UInt64 GrouplistServerInfo),
    (∀ e ∈ serverInfo, ServerRead hasserver e) → ∀ e ∈ (readServerInfo hasserver fuel r serverInfo).2.2, ServerRead hasserver e
  | fuel, r, serverInfo, h => by
    unfold readServerInfo
    dsimp only
    split
    · exact h
    · split
      · exact h
      · cases fuel with
        | zero => exact h
        | succ fuel =>
          dsimp only
          split
          · split
            · next hserver =>
              refine readServerInfo_read fuel _ _ fun e he => ?_
              rcases SortedMap.mem_insertNew he with he | rfl
              · exact h e he
              · exact ⟨rfl, hserver, getD_of_mem (fun _ hc => by cases hc) fun t ht => btoks_clean ht⟩
            · exact readServerInfo_read fuel _ _ h
          · exact readServerInfo_read fuel _ _ h

theorem start_read {f : Text} : ∀ e ∈ (start hasserver f).2.2, ServerRead hasserver e := by
  have hnone : ∀ e ∈ (∅ : SortedMap UInt64 GrouplistServerInfo), ServerRead hasserver e := fun e he =>
    absurd he SortedMap.not_mem_empty
  unfold start
  dsimp only
  split
  · exact hnone
  · split
    · exact readServerInfo_read _ _ _ hnone
    · split
      · exact hnone
      · exact hnone

end GrouplistReader

namespace Grouplist
open GrouplistReader
variable {hasserver : UInt64 → Bool} {filename : Text} {file : Option Text}

theorem load_groups : ∀ e ∈ (load hasserver filename file).groups, GroupRead hasserver e := by
  cases file with
  | none => exact fun e he => absurd he SortedMap.not_mem_empty
  | some f =>
    unfold load
    dsimp only
    rcases start hasserver f with ⟨err, r, serverInfo⟩
    cases err with
    | some err => exact fun e he => absurd he SortedMap.not_mem_empty
    | none => exact readGroups_read _ _ _ fun e he => absurd he SortedMap.not_mem_empty

theorem load_serverInfo : ∀ e ∈ (load hasserver filename file).serverInfo, ServerRead hasserver e := by
  cases file with
  | none => exact fun e he => absurd he SortedMap.not_mem_empty
  | some f =>
    have hstart := @start_read hasserver f
    unfold load
    dsimp only
    rcases hres : start hasserver f with ⟨err, r, serverInfo⟩
    rw [hres] at hstart
    cases err <;> exact hstart

/-- What is loaded is sound. -/
theorem load_sound : (load hasserver filename file).Sound where
  name e he := (load_groups e he).1
  group e he := ⟨(load_groups e he).2.1.sound, (load_groups e he).2.2⟩

end Grouplist
end Nget

import Mathlib
import Nget.Galias

/-! Where a name is found. Every group that is made is an entry, with an alias or with none, and a name is
    found under the first entry that has it as its alias or as its newsgroup. A group that is made on demand
    is one more entry, without an alias. -/

namespace Nget
open CString

/-! ### The entries of a galias section -/

/-- The entry, of an alias and a newsgroup, has the name as its alias. -/
def isAlias (t : Text) (e : Text × Text) : Bool := !t.isEmpty && e.1 = t

/-- The entry has the name as its alias or as its newsgroup. -/
def mentions (t : Text) (e : Text × Text) : Bool := isAlias t e || e.2 = t

/-- The priority groupings that a galias section is read with. -/
def knownPrios (prios : List Text) : List Text := if "default".toList ∈ prios then prios else prios ++ ["default".toList]

/-- A group with this priority grouping, or with none, can be made. -/
def knownPrio (prios : List Text) (prio : Text) : Bool := (if prio.isEmpty then "default".toList else prio) ∈ knownPrios prios

/-- The entries in the order in which they are read: the items that are no metagroups, and the sections whose
    priority grouping is known. -/
def Galias.entries (prios : List Text) (ginfo : Galias) : List (Text × Text) :=
  ginfo.items.entries.filter (fun di => ',' ∉ di.2) ++
    (ginfo.sections.entries.filter fun ds => knownPrio prios ds.2.prio).map fun ds => (ds.1, ds.2.group)

section
variable {entries : List (Text × Text)} {t : Text} {e : Text × Text}

theorem mentions_of_isAlias (h : isAlias t e = true) : mentions t e = true := by
  rw [mentions, h, Bool.true_or]

/-- An entry without an alias is found under its newsgroup only. -/
theorem mentions_demanded {n : Text} : mentions t ([], n) = true ↔ n = t := by
  unfold mentions isAlias
  cases t with
  | nil => simp
  | cons c t => simp

end

/-! ### The maps of the configuration -/

/-- The groups that were made are these entries, and each name is found under the first that mentions it. -/
structure Indexed (prios : List Text) (entries : List (Text × Text)) (cfg : NgetConfig) : Prop where
  infos : cfg.infos.map (fun g => (g.alia, g.group)) = entries
  groups : ∀ t, (cfg.groups.find? t).map (·.2) = entries.findIdx? (mentions t)
  prios : cfg.prioritygroupings = knownPrios prios

section
variable {prios : List Text} {entries : List (Text × Text)} {cfg : NgetConfig}

theorem Indexed.length (h : Indexed prios entries cfg) : cfg.infos.length = entries.length := by
  rw [← h.infos, List.length_map]

/-- Two insertions of a new group: of its alias, if it has one, and of its newsgroup. -/
theorem find?_insert_group {m : SortedMap Text Nat} {alia name t : Text} {group : Nat} :
    (((if !alia.isEmpty then m.insertNew alia group else m).insertNew name group).find? t).map (·.2) =
      ((m.find? t).map (·.2)).or (if mentions t (alia, name) = true then some group else none) := by
  rw [SortedMap.find?_insertNew]
  have hif : (if !alia.isEmpty then m.insertNew alia group else m).find? t =
      (m.find? t).or (if isAlias t (alia, name) = true then some (alia, group) else none) := by
    by_cases hempty : alia.isEmpty = true
    · rw [if_neg (by simp [hempty]), if_neg, Option.or_none]
      rw [List.isEmpty_iff] at hempty
      cases t <;> simp [isAlias, hempty]
    · rw [if_pos (by simp [hempty]), SortedMap.find?_insertNew]
      have hiff : (t = alia) ↔ isAlias t (alia, name) = true := by
        unfold isAlias
        constructor
        · rintro rfl
          simp [hempty]
        · intro h
          simp only [Bool.and_eq_true, decide_eq_true_eq] at h
          exact h.2.symm
      simp only [hiff]
  rw [hif]
  cases hfind : m.find? t with
  | some e => simp
  | none =>
    rw [Option.none_or, Option.map_none, Option.none_or]
    unfold mentions
    by_cases halias : isAlias t (alia, name) = true
    · simp [halias]
    · rw [if_neg halias, Option.none_or]
      by_cases hname : name = t
      · simp [hname]
      · simp [halias, hname, Ne.symm hname]

/-- A new group is a new entry at the end. -/
theorem Indexed.addgroup (h : Indexed prios entries cfg) {alia name prio : Text} {usegz : Int32}
    (hprio : knownPrio prios prio = true) :
    (cfg.addgroup alia name prio usegz).1 = some entries.length ∧
      Indexed prios (entries ++ [(alia, name)]) (cfg.addgroup alia name prio usegz).2 := by
  unfold NgetConfig.addgroup
  dsimp only
  rw [h.prios, if_pos (of_decide_eq_true hprio)]
  refine ⟨by rw [h.length], ?_, ?_, rfl⟩
  · rw [List.map_append, h.infos]
    rfl
  · intro t
    dsimp only
    rw [find?_insert_group, h.groups, List.findIdx?_append, h.length]
    by_cases hm : mentions t (alia, name) = true
    · simp [hm]
    · simp [hm]

theorem Indexed.addgroup_unknown (h : Indexed prios entries cfg) {alia name prio : Text} {usegz : Int32}
    (hprio : ¬knownPrio prios prio = true) : (cfg.addgroup alia name prio usegz).2 = cfg := by
  unfold NgetConfig.addgroup
  dsimp only
  rw [h.prios, if_neg fun hmem => hprio (decide_eq_true hmem)]

theorem knownPrio_default : knownPrio prios [] = true := by
  refine decide_eq_true ?_
  show "default".toList ∈ knownPrios prios
  unfold knownPrios
  split
  · next h => exact h
  · simp

theorem Indexed.of_metagroups (h : Indexed prios entries cfg) (metagroups : SortedMap Text Text) :
    Indexed prios entries { cfg with metagroups } := ⟨h.infos, h.groups, h.prios⟩

theorem foldl_items_indexed : ∀ (items entries : List (Text × Text)) (cfg : NgetConfig), Indexed prios entries cfg →
    Indexed prios (entries ++ items.filter fun di => ',' ∉ di.2)
      (items.foldl (fun cfg di => cfg.addgroupOrMetagroup di.1 di.2) cfg)
  | [], entries, cfg, h => by simpa using h
  | di :: items, entries, cfg, h => by
    rw [List.foldl_cons]
    by_cases hcomma : ',' ∈ di.2
    · rw [List.filter_cons_of_neg (by simp [hcomma]), NgetConfig.addgroupOrMetagroup, if_pos hcomma]
      exact foldl_items_indexed items entries _ (h.of_metagroups _)
    · rw [List.filter_cons_of_pos (by simp [hcomma]), NgetConfig.addgroupOrMetagroup, if_neg hcomma, List.append_cons]
      exact foldl_items_indexed items _ _ (h.addgroup knownPrio_default).2

theorem foldl_sections_indexed : ∀ (sections : List (Text × GaliasSection)) (entries : List (Text × Text)) (cfg : NgetConfig),
    Indexed prios entries cfg →
      Indexed prios (entries ++ (sections.filter fun ds => knownPrio prios ds.2.prio).map fun ds => (ds.1, ds.2.group))
        (sections.foldl (fun cfg ds => (cfg.addgroup ds.1 ds.2.group ds.2.prio ds.2.usegz).2) cfg)
  | [], entries, cfg, h => by simpa using h
  | ds :: sections, entries, cfg, h => by
    rw [List.foldl_cons]
    by_cases hprio : knownPrio prios ds.2.prio = true
    · rw [List.filter_cons, if_pos hprio, List.map_cons, List.append_cons]
      exact foldl_sections_indexed sections _ _ (h.addgroup hprio).2
    · rw [List.filter_cons, if_neg hprio, h.addgroup_unknown hprio]
      exact foldl_sections_indexed sections entries cfg h

/-- A configuration has the entries of its galias section. -/
theorem setGalias_indexed {ginfo : Galias} : Indexed prios (ginfo.entries prios) (NgetConfig.setGalias prios ginfo) := by
  have hinitial : Indexed prios [] { prioritygroupings := knownPrios prios } := ⟨rfl, fun _ => rfl, rfl⟩
  have hitems := foldl_items_indexed ginfo.items.entries [] _ hinitial
  rw [List.nil_append] at hitems
  exact foldl_sections_indexed ginfo.sections.entries _ _ hitems

/-! ### Groups on demand -/

/-- The entries are those of `base`, and groups that were made on demand for names that `base` does not
    mention. -/
def Demanded (base entries : List (Text × Text)) : Prop :=
  ∃ demanded : List Text, entries = base ++ demanded.map (fun n => ([], n)) ∧ ∀ n ∈ demanded, base.findIdx? (mentions n) = none

theorem demanded_refl (base : List (Text × Text)) : Demanded base base := ⟨[], by simp, by simp⟩

/-- A name that is found stays where it is found. -/
theorem findIdx?_append_some {p : Text × Text → Bool} {more : List (Text × Text)} {i : Nat} (h : entries.findIdx? p = some i) :
    (entries ++ more).findIdx? p = some i := by
  rw [List.findIdx?_append, h, Option.some_or]

/-- A name is found, if need be after its group was made. -/
theorem Indexed.getgroup {base : List (Text × Text)} (h : Indexed prios entries cfg)
    (hd : Demanded base entries) (name : Text) :
    ∃ more i, Indexed prios (entries ++ more) (cfg.getgroup name).2 ∧ Demanded base (entries ++ more) ∧
      (cfg.getgroup name).1 = some i ∧ (entries ++ more).findIdx? (mentions name) = some i := by
  have hlookup := h.groups name
  unfold NgetConfig.getgroup
  cases hfind : cfg.groups.find? name with
  | some e =>
    rw [hfind] at hlookup
    refine ⟨[], e.2, ?_, ?_, rfl, ?_⟩
    · simpa using h
    · simpa using hd
    · simpa using hlookup.symm
  | none =>
    rw [hfind] at hlookup
    have hnone : entries.findIdx? (mentions name) = none := hlookup.symm
    obtain ⟨hplace, hindexed⟩ := @Indexed.addgroup prios entries cfg h [] name [] (-2) knownPrio_default
    refine ⟨[([], name)], entries.length, hindexed, ?_, hplace, ?_⟩
    · obtain ⟨demanded, rfl, hdemanded⟩ := hd
      refine ⟨demanded ++ [name], by simp, fun n hn => ?_⟩
      rcases List.mem_append.mp hn with hn | hn
      · exact hdemanded n hn
      · rw [List.mem_singleton.mp hn]
        rw [List.findIdx?_append] at hnone
        exact (Option.or_eq_none_iff.mp hnone).1
    · rw [List.findIdx?_append, hnone, Option.none_or, List.findIdx?_singleton, if_pos (mentions_demanded.mpr rfl)]
      simp

/-! ### What a name stands for -/

/-- The newsgroup of the name's alias, or the name itself. -/
def aliasTarget (entries : List (Text × Text)) (t : Text) : Text := ((entries.find? (isAlias t)).map (·.2)).getD t

/-- The newsgroup that the name is found under. -/
def foundTarget (entries : List (Text × Text)) (t : Text) : Text := ((entries.find? (mentions t)).map (·.2)).getD t

/-- The name is an alias, but it is found under an earlier entry as the newsgroup of that one. -/
def Hidden (entries : List (Text × Text)) (t : Text) : Prop :=
  (∃ e, entries.find? (mentions t) = some e ∧ isAlias t e = false) ∧ ∃ e ∈ entries, isAlias t e = true

theorem foundTarget_of_hidden {t : Text} (h : Hidden entries t) : foundTarget entries t = t := by
  obtain ⟨⟨e, he, hno⟩, -⟩ := h
  have hm := List.find?_some he
  rw [mentions, hno, Bool.false_or, decide_eq_true_eq] at hm
  rw [foundTarget, he]
  exact hm

/-- An alias that is not hidden is found as an alias. -/
theorem foundTarget_of_not_hidden {t : Text} (h : ¬Hidden entries t) : foundTarget entries t = aliasTarget entries t := by
  unfold foundTarget aliasTarget
  cases halias : entries.find? (isAlias t) with
  | none =>
    cases hfound : entries.find? (mentions t) with
    | none => rfl
    | some e =>
      have hm := List.find?_some hfound
      have hno := List.find?_eq_none.mp halias e (List.mem_of_find?_eq_some hfound)
      rw [mentions, Bool.eq_false_iff.mpr hno, Bool.false_or, decide_eq_true_eq] at hm
      exact hm
  | some e =>
    have hmem := List.mem_of_find?_eq_some halias
    have hyes := List.find?_some halias
    cases hfound : entries.find? (mentions t) with
    | none => exact absurd (mentions_of_isAlias hyes) (List.find?_eq_none.mp hfound e hmem)
    | some e' =>
      -- What it is found under is an alias, so no earlier entry has it as an alias.
      have hyes' : isAlias t e' = true := by
        by_contra hno
        exact h ⟨⟨e', hfound, Bool.eq_false_iff.mpr hno⟩, e, hmem, hyes⟩
      obtain ⟨-, before, after, hsplit, hbefore⟩ := List.find?_eq_some_iff_append.mp hfound
      have hfirst : entries.find? (isAlias t) = some e' := by
        refine List.find?_eq_some_iff_append.mpr ⟨hyes', before, after, hsplit, fun x hx => ?_⟩
        have := hbefore x hx
        rw [Bool.not_eq_true', mentions, Bool.or_eq_false_iff] at this
        rw [this.1]
        rfl
      rw [hfirst] at halias
      cases halias
      rfl

end
end Nget

import Mathlib
import Nget.Galias
import Nget.Lib.Acyclic

/-! When the expansion of a group specification comes to an end. A metagroup is expanded each time that its
    name is met, so the recursion ends exactly if no metagroup that the specification reaches leads back to
    itself. -/

namespace Nget
open CString Relation Getgroups

/-! ### The metagroups of a configuration -/

/-- The item `a` is a metagroup, and `b` is a name of its value that may be expanded in turn. -/
def Galias.Leads (ginfo : Galias) (a b : Text) : Prop := ∃ v, (a, v) ∈ ginfo.items ∧ ',' ∈ v ∧ b ∈ split ',' v ∧ b ≠ "*".toList

/-- A name of the specification is expanded that leads to a metagroup which leads back to itself. -/
def Galias.Cyclic (ginfo : Galias) (names : Text) : Prop :=
  ∃ a ∈ split ',' names, a ≠ "*".toList ∧ ∃ b, ReflTransGen ginfo.Leads a b ∧ TransGen ginfo.Leads b b

namespace NgetConfig
variable {cfg : NgetConfig}

@[simp] theorem addgroup_metagroups {alia name prio : Text} {usegz : Int32} :
    (cfg.addgroup alia name prio usegz).2.metagroups = cfg.metagroups := by
  unfold addgroup
  dsimp only
  generalize (if prio.isEmpty = true then _ else prio) = prio
  by_cases hprio : prio ∈ cfg.prioritygroupings
  · rw [if_pos hprio]
  · rw [if_neg hprio]

@[simp] theorem getgroup_metagroups {name : Text} : (cfg.getgroup name).2.metagroups = cfg.metagroups := by
  unfold getgroup
  split
  · rfl
  · exact addgroup_metagroups

theorem foldl_items_metagroups {k : Text} : ∀ (items : List (Text × Text)) (cfg : NgetConfig),
    (items.foldl (fun cfg di => cfg.addgroupOrMetagroup di.1 di.2) cfg).metagroups.find? k =
      (cfg.metagroups.find? k).or (items.find? fun di => di.1 = k && ',' ∈ di.2)
  | [], cfg => by simp
  | di :: items, cfg => by
    rw [List.foldl_cons, foldl_items_metagroups items]
    by_cases hcomma : ',' ∈ di.2
    · have hadd : (cfg.addgroupOrMetagroup di.1 di.2).metagroups = cfg.metagroups.insertNew di.1 di.2 := by
        rw [addgroupOrMetagroup, if_pos hcomma]
        rfl
      rw [hadd, SortedMap.find?_insertNew, Option.or_assoc]
      by_cases hk : k = di.1
      · rw [if_pos hk, List.find?_cons_of_pos (by simp [hk, hcomma])]
        rfl
      · rw [if_neg hk, List.find?_cons_of_neg (by simp [Ne.symm hk]), Option.none_or]
    · rw [addgroupOrMetagroup, if_neg hcomma, addgroup_metagroups, List.find?_cons_of_neg (by simp [hcomma])]

theorem foldl_sections_metagroups : ∀ (sections : List (Text × GaliasSection)) (cfg : NgetConfig),
    (sections.foldl (fun cfg ds => (cfg.addgroup ds.1 ds.2.group ds.2.prio ds.2.usegz).2) cfg).metagroups = cfg.metagroups
  | [], _ => rfl
  | ds :: sections, cfg => by rw [List.foldl_cons, foldl_sections_metagroups sections, addgroup_metagroups]

/-- The metagroups are the items with a comma. -/
theorem setGalias_metagroups {prios : List Text} {ginfo : Galias} {k v : Text} :
    (setGalias prios ginfo).metagroups.find? k = some (k, v) ↔ (k, v) ∈ ginfo.items ∧ ',' ∈ v := by
  unfold setGalias
  dsimp only
  rw [foldl_sections_metagroups, foldl_items_metagroups]
  dsimp only
  rw [show (∅ : SortedMap Text Text).find? k = none from rfl, Option.none_or]
  constructor
  · intro h
    have hmem := List.mem_of_find?_eq_some h
    have hcomma := List.find?_some h
    simp only [decide_true, Bool.true_and, decide_eq_true_eq] at hcomma
    exact ⟨hmem, hcomma⟩
  · rintro ⟨hmem, hcomma⟩
    cases hfound : ginfo.items.entries.find? (fun di => di.1 = k && ',' ∈ di.2) with
    | none =>
      have := List.find?_eq_none.mp hfound (k, v) hmem
      simp [hcomma] at this
    | some di =>
      have hkey := List.find?_some hfound
      simp only [Bool.and_eq_true, decide_eq_true_eq] at hkey
      rw [SortedMap.eq_of_mem (List.mem_of_find?_eq_some hfound) hmem hkey.1]

end NgetConfig

/-- The configurations that come of a galias section, and of calls of `getgroups` after that. -/
inductive NgetConfig.Reached (prios : List Text) (ginfo : Galias) : NgetConfig → Prop
  | loaded : Reached prios ginfo (setGalias prios ginfo)
  | called {cfg : NgetConfig} {dir : CacheDir} {fuel : Nat} {names : Text} {st : Getgroups} (h : Reached prios ginfo cfg)
      (hcall : getgroups dir fuel names cfg = some (.ok st)) : Reached prios ginfo st.cfg
  | thrown {cfg cfg' : NgetConfig} {dir : CacheDir} {fuel : Nat} {names e : Text} (h : Reached prios ginfo cfg)
      (hcall : getgroups dir fuel names cfg = some (.error (e, cfg'))) : Reached prios ginfo cfg'

/-! ### The recursion -/

namespace Getgroups
variable {dir : CacheDir} {st st' : Getgroups} {names : List Text}
    {expand : Text → Getgroups → Option (Except (Text × NgetConfig) Getgroups)}

/-- The configuration that a call leaves. -/
def left : Except (Text × NgetConfig) Getgroups → NgetConfig
  | .ok st => st.cfg
  | .error e => e.2

section
variable {P : NgetConfig → Prop}

theorem foldl_push_keeps (hget : ∀ name cfg, P cfg → P (cfg.getgroup name).2) :
    ∀ (names : List Text) (st : Getgroups), P st.cfg →
    P (names.foldl (fun st name => st.push name) st).cfg
  | [], _, h => h
  | name :: names, st, h => foldl_push_keeps hget names (st.push name) (hget name st.cfg h)

theorem expandName_keeps (hget : ∀ name cfg, P cfg → P (cfg.getgroup name).2)
    (hexpand : ∀ v st r, expand v st = some r → P st.cfg → P (left r)) {name : Text} {r : Except (Text × NgetConfig) Getgroups}
    (h : expandName dir expand name st = some r) (hst : P st.cfg) : P (left r) := by
  unfold expandName at h
  split at h
  · unfold dogetallcachedgroups at h
    cases dir with
    | error e =>
      cases h
      exact hst
    | ok files =>
      cases h
      exact foldl_push_keeps hget _ st hst
  · cases hfind : st.cfg.metagroups.find? name with
    | some mg =>
      rw [hfind] at h
      exact hexpand mg.2 st r h hst
    | none =>
      rw [hfind] at h
      cases h
      exact hget name st.cfg hst

theorem expandNames_keeps (hget : ∀ name cfg, P cfg → P (cfg.getgroup name).2)
    (hexpand : ∀ v st r, expand v st = some r → P st.cfg → P (left r)) :
    ∀ (names : List Text) (st : Getgroups) (r : Except (Text × NgetConfig) Getgroups),
      expandNames dir expand names st = some r →
      P st.cfg → P (left r)
  | [], st, r, h, hst => by
    cases h
    exact hst
  | name :: names, st, r, h, hst => by
    unfold expandNames at h
    generalize hname : expandName dir expand name st = r₁ at h
    obtain _ | e | st₁ := r₁
    · cases h
    · cases h
      exact expandName_keeps hget hexpand hname hst
    · exact expandNames_keeps hget hexpand names st₁ r h (expandName_keeps hget hexpand hname hst)

/-- What getting a group keeps, a call keeps. -/
theorem dogetgroups_keeps (hget : ∀ name cfg, P cfg → P (cfg.getgroup name).2) : ∀ (fuel : Nat) (names : Text) (st : Getgroups)
    (r : Except (Text × NgetConfig) Getgroups), dogetgroups dir fuel names st = some r → P st.cfg → P (left r)
  | 0, _, _, _, h, _ => by cases h
  | fuel + 1, names, st, r, h, hst => expandNames_keeps hget (dogetgroups_keeps hget fuel) (split ',' names) st r h hst

end

theorem expandName_metagroups {name : Text} {r : Except (Text × NgetConfig) Getgroups}
    (hexpand : ∀ v st r, expand v st = some r → (left r).metagroups = st.cfg.metagroups)
      (h : expandName dir expand name st = some r) :
    (left r).metagroups = st.cfg.metagroups :=
  expandName_keeps (P := fun cfg => cfg.metagroups = st.cfg.metagroups) (fun _ _ h => NgetConfig.getgroup_metagroups.trans h)
    (fun v st₁ r₁ hr hst => (hexpand v st₁ r₁ hr).trans hst) h rfl

/-- A call changes no metagroup. -/
theorem dogetgroups_metagroups (fuel : Nat) (names : Text) (st : Getgroups) (r : Except (Text × NgetConfig) Getgroups)
    (h : dogetgroups dir fuel names st = some r) : (left r).metagroups = st.cfg.metagroups :=
  dogetgroups_keeps (P := fun cfg => cfg.metagroups = st.cfg.metagroups) (fun _ _ h => NgetConfig.getgroup_metagroups.trans h)
    fuel names st r h rfl

/-! ### A recursion that ends -/

theorem expandNames_isSome {mgs : SortedMap Text Text}
    (hexpand : ∀ v st r, expand v st = some r → (left r).metagroups = st.cfg.metagroups) :
    ∀ (names : List Text) (st : Getgroups), st.cfg.metagroups = mgs →
      (∀ name ∈ names, name ≠ "*".toList → ∀ mg, mgs.find? name = some mg → ∀ st : Getgroups, st.cfg.metagroups = mgs →
        (expand mg.2 st).isSome = true) →
      (expandNames dir expand names st).isSome = true
  | [], _, _, _ => rfl
  | name :: names, st, hst, h => by
    unfold expandNames
    have hone : (expandName dir expand name st).isSome = true := by
      unfold expandName
      split
      · rfl
      · next hstar =>
        rw [hst]
        cases hfind : mgs.find? name with
        | some mg => exact h name List.mem_cons_self hstar mg hfind st hst
        | none => rfl
    generalize hname : expandName dir expand name st = r₁ at hone
    obtain _ | e | st₁ := r₁
    · cases hone
    · rfl
    · have hst₁ := (expandName_metagroups hexpand hname).trans hst
      exact expandNames_isSome hexpand names st₁ hst₁ fun n hn => h n (List.mem_cons_of_mem name hn)

/-- The metagroups of the configuration lead from name to name. -/
def Leads (mgs : SortedMap Text Text) (a b : Text) : Prop := ∃ mg, mgs.find? a = some mg ∧ b ∈ split ',' mg.2 ∧ b ≠ "*".toList

/-- With enough levels every metagroup of the names is expanded to its end, so the loop over them is. -/
theorem expandNames_ends {mgs : SortedMap Text Text} {names : List Text}
    (h : ∀ a ∈ names, a ≠ "*".toList → ∀ᶠ fuel in Filter.atTop,
      ∀ mg, mgs.find? a = some mg → ∀ st : Getgroups, st.cfg.metagroups = mgs → (dogetgroups dir fuel mg.2 st).isSome = true) :
    ∀ᶠ fuel in Filter.atTop, ∀ st : Getgroups, st.cfg.metagroups = mgs →
      (expandNames dir (dogetgroups dir fuel) names st).isSome = true := by
  have hall : ∀ᶠ fuel in Filter.atTop, ∀ a ∈ {a | a ∈ names}, a ≠ "*".toList → ∀ mg, mgs.find? a = some mg →
      ∀ st : Getgroups, st.cfg.metagroups = mgs → (dogetgroups dir fuel mg.2 st).isSome = true := by
    refine (Filter.eventually_all_finite (List.finite_toSet _)).mpr fun a ha => ?_
    by_cases hstar : a = "*".toList
    · exact Filter.Eventually.of_forall fun _ hne => absurd hstar hne
    · exact (h a ha hstar).mono fun _ h _ => h
  exact hall.mono fun fuel h st hst => expandNames_isSome (dogetgroups_metagroups fuel) names st hst h

/-- Where the metagroups that a name leads to come to an end, so does its expansion. -/
theorem dogetgroups_ends {mgs : SortedMap Text Text} {a : Text} (h : Acyclic.Ends (Leads mgs) a) :
    ∀ᶠ fuel in Filter.atTop, ∀ mg, mgs.find? a = some mg → ∀ st : Getgroups, st.cfg.metagroups = mgs →
      (dogetgroups dir fuel mg.2 st).isSome = true := by
  induction h with
  | intro a _ ih =>
    cases hfind : mgs.find? a with
    | none => exact Filter.Eventually.of_forall fun _ mg hmg => by cases hmg
    | some mg =>
      have hnames := @expandNames_ends dir mgs (split ',' mg.2) fun b hb hstar => ih b ⟨mg, hfind, hb, hstar⟩
      obtain ⟨fuel₀, hfuel₀⟩ := Filter.eventually_atTop.mp hnames
      refine Filter.eventually_atTop.mpr ⟨fuel₀ + 1, fun fuel hfuel mg' hmg' st hst => ?_⟩
      cases hmg'
      obtain ⟨fuel, rfl⟩ : ∃ n, fuel = n + 1 := ⟨fuel - 1, by omega⟩
      exact hfuel₀ fuel (by omega) st hst

/-! ### A recursion that has ended -/

section
variable {files : List Text}

theorem expandName_ok {name : Text} {e : Text × NgetConfig} (hexpand : ∀ v st e, expand v st ≠ some (.error e)) :
    expandName (.ok files) expand name st ≠ some (.error e) := by
  intro h
  unfold expandName at h
  split at h
  · cases h
  · cases hfind : st.cfg.metagroups.find? name with
    | some mg =>
      rw [hfind] at h
      exact hexpand mg.2 st e h
    | none =>
      rw [hfind] at h
      cases h

theorem expandNames_ok (hexpand : ∀ v st e, expand v st ≠ some (.error e)) :
    ∀ (names : List Text) (st : Getgroups) (e : Text × NgetConfig),
    expandNames (.ok files) expand names st ≠ some (.error e)
  | [], _, _, h => by cases h
  | name :: names, st, e, h => by
    unfold expandNames at h
    generalize hname : expandName (.ok files) expand name st = r₁ at h
    obtain _ | e | st₁ := r₁
    · cases h
    · exact expandName_ok hexpand hname
    · exact expandNames_ok hexpand names st₁ e h

/-- Nothing is thrown where the directory of the caches can be read. -/
theorem dogetgroups_ok : ∀ (fuel : Nat) (names : Text) (st : Getgroups) (e : Text × NgetConfig),
    dogetgroups (.ok files) fuel names st ≠ some (.error e)
  | 0, _, _, _, h => by cases h
  | fuel + 1, names, st, e, h => expandNames_ok (dogetgroups_ok fuel) (split ',' names) st e h

/-- Each metagroup of the names was expanded to its end. -/
theorem expandNames_each {mgs : SortedMap Text Text}
    (hexpand : ∀ v st r, expand v st = some r → (left r).metagroups = st.cfg.metagroups)
    (hok : ∀ v st e, expand v st ≠ some (.error e)) :
    ∀ (names : List Text) (st : Getgroups), st.cfg.metagroups = mgs → (expandNames (.ok files) expand names st).isSome = true →
      ∀ name ∈ names, name ≠ "*".toList → ∀ mg, mgs.find? name = some mg →
        ∃ st : Getgroups, st.cfg.metagroups = mgs ∧ (expand mg.2 st).isSome = true
  | name :: names, st, hst, hsome, n, hn, hstar, mg, hmg => by
    unfold expandNames at hsome
    generalize hname : expandName (.ok files) expand name st = r₁ at hsome
    obtain _ | e | st₁ := r₁
    · cases hsome
    · exact absurd hname (expandName_ok hok)
    · have hst₁ := (expandName_metagroups hexpand hname).trans hst
      rcases List.mem_cons.mp hn with rfl | hn
      · refine ⟨st, hst, ?_⟩
        rw [expandName, if_neg hstar, hst, hmg] at hname
        dsimp only at hname
        rw [hname]
        rfl
      · exact expandNames_each hexpand hok names st₁ hst₁ hsome n hn hstar mg hmg

/-- Where an expansion comes to its end, so do the metagroups that its names lead to. -/
theorem ends_of_dogetgroups {mgs : SortedMap Text Text} :
    ∀ (fuel : Nat) (names : Text) (st : Getgroups), st.cfg.metagroups = mgs →
    (dogetgroups (.ok files) fuel names st).isSome = true → ∀ a ∈ split ',' names, a ≠ "*".toList → Acyclic.Ends (Leads mgs) a
  | fuel + 1, names, st, hst, hsome, a, ha, hstar => Acyclic.ends_of_next fun b hab => by
    obtain ⟨mg, hmg, hb, hbstar⟩ := hab
    obtain ⟨st₁, hst₁, hsome₁⟩ := expandNames_each (dogetgroups_metagroups fuel) (dogetgroups_ok fuel)
      (split ',' names) st hst hsome
      a ha hstar mg hmg
    exact ends_of_dogetgroups fuel mg.2 st₁ hst₁ hsome₁ b hb hbstar

end
end Getgroups

/-! ### Every specification -/

section
variable {prios : List Text} {ginfo : Galias} {cfg : NgetConfig}

/-- What holds when the section was read and is kept by getting a group holds from then on. -/
theorem NgetConfig.Reached.keeps {P : NgetConfig → Prop} (h : cfg.Reached prios ginfo) (hloaded : P (setGalias prios ginfo))
    (hget : ∀ name cfg, P cfg → P (cfg.getgroup name).2) : P cfg := by
  have hcall : ∀ {dir : CacheDir} {fuel : Nat} {names : Text} {cfg : NgetConfig} {r : Except (Text × NgetConfig) Getgroups},
      getgroups dir fuel names cfg = some r → P cfg → P (left r) := by
    intro dir fuel names cfg r hr hcfg
    obtain ⟨r₀, hr₀, rfl⟩ := Option.map_eq_some_iff.mp hr
    have := dogetgroups_keeps hget fuel names { cfg } r₀ hr₀ hcfg
    cases r₀ <;> exact this
  induction h with
  | loaded => exact hloaded
  | called _ hc ih => exact hcall hc ih
  | thrown _ hc ih => exact hcall hc ih

theorem NgetConfig.Reached.metagroups (h : cfg.Reached prios ginfo) : cfg.metagroups = (setGalias prios ginfo).metagroups :=
  h.keeps (P := fun cfg => cfg.metagroups = (setGalias prios ginfo).metagroups) rfl fun _ _ h => getgroup_metagroups.trans h

theorem leads_iff {a b : Text} : Getgroups.Leads (NgetConfig.setGalias prios ginfo).metagroups a b ↔ ginfo.Leads a b := by
  constructor
  · rintro ⟨mg, hmg, hb, hstar⟩
    obtain rfl : mg.1 = a := (SortedMap.find?_eq_some_iff.mp hmg).2
    obtain ⟨hmem, hcomma⟩ := NgetConfig.setGalias_metagroups.mp hmg
    exact ⟨mg.2, hmem, hcomma, hb, hstar⟩
  · rintro ⟨v, hmem, hcomma, hb, hstar⟩
    exact ⟨(a, v), NgetConfig.setGalias_metagroups.mpr ⟨hmem, hcomma⟩, hb, hstar⟩

/-- The names that a name leads to come to an end, or some lead back to themselves. -/
theorem ends_iff_acyclic {a : Text} : Acyclic.Ends (Getgroups.Leads (NgetConfig.setGalias prios ginfo).metagroups) a ↔
    ∀ b, ReflTransGen ginfo.Leads a b → ¬TransGen ginfo.Leads b b := by
  have hleads : Getgroups.Leads (NgetConfig.setGalias prios ginfo).metagroups = ginfo.Leads := by
    funext a b
    exact propext leads_iff
  rw [hleads]
  refine Acyclic.ends_iff (List.finite_toSet (ginfo.items.entries.map (·.1))) ?_
  rintro x y ⟨v, hmem, -⟩
  exact List.mem_map.mpr ⟨(x, v), hmem, rfl⟩

/-- Without a cycle a call comes to an end, whatever is in the directory of the caches. -/
theorem getgroups_ends (hcfg : cfg.Reached prios ginfo) {names : Text} (h : ¬ginfo.Cyclic names) (dir : CacheDir) :
    ∃ fuel, (getgroups dir fuel names cfg).isSome = true := by
  -- The specification is expanded as the value of a metagroup would be.
  have hnames := @expandNames_ends dir (NgetConfig.setGalias prios ginfo).metagroups (split ',' names) fun a ha hstar =>
    dogetgroups_ends (ends_iff_acyclic.mpr fun b hab hbb => h ⟨a, ha, hstar, b, hab, hbb⟩)
  obtain ⟨fuel, hfuel⟩ := hnames.exists
  refine ⟨fuel + 1, ?_⟩
  rw [getgroups, Option.isSome_map]
  exact hfuel { cfg } hcfg.metagroups

/-- A call comes to an end, whatever is in the directory of the caches, exactly if no name that is expanded
    leads to a metagroup that leads back to itself. -/
theorem getgroups_terminates_iff (hcfg : cfg.Reached prios ginfo) (names : Text) :
    (∀ dir, ∃ fuel, (getgroups dir fuel names cfg).isSome = true) ↔ ¬ginfo.Cyclic names := by
  constructor
  · rintro h ⟨a, ha, hstar, b, hab, hbb⟩
    obtain ⟨fuel, hfuel⟩ := h (.ok [])
    rw [getgroups, Option.isSome_map] at hfuel
    exact ends_iff_acyclic.mp (ends_of_dogetgroups fuel names { cfg } hcfg.metagroups hfuel a ha hstar) b hab hbb
  · exact getgroups_ends hcfg

end

/-- A metagroup that refers to itself. -/
def selfGalias : Galias where
  items := (∅ : SortedMap Text Text).assign "a".toList "a,b".toList

/-- A metagroup that refers to another. -/
def nestedGalias : Galias where
  items := ((∅ : SortedMap Text Text).assign "a".toList "alt.x,b".toList).assign "b".toList "alt.y,alt.z".toList

theorem getgroups_terminates_iff_nested :
    (∀ dir, ∃ fuel, (getgroups dir fuel "a".toList (NgetConfig.setGalias [] nestedGalias)).isSome = true) ↔
      ¬nestedGalias.Cyclic "a".toList :=
  getgroups_terminates_iff NgetConfig.Reached.loaded "a".toList

/-- The expansion of a metagroup that refers to itself goes on for ever. -/
theorem getgroups_of_self : ¬∀ (prios : List Text) (ginfo : Galias) (names : Text) (dir : CacheDir), ∃ fuel,
    (getgroups dir fuel names (NgetConfig.setGalias prios ginfo)).isSome = true := by
  intro h
  obtain ⟨fuel, hfuel⟩ := h [] selfGalias "a".toList (.ok [])
  have hleads : Getgroups.Leads (NgetConfig.setGalias [] selfGalias).metagroups "a".toList "a".toList :=
    ⟨("a".toList, "a,b".toList), by decide +kernel, by decide +kernel, by decide⟩
  rw [getgroups, Option.isSome_map] at hfuel
  have hends := ends_of_dogetgroups fuel "a".toList _ rfl hfuel "a".toList (by decide) (by decide)
  exact hends.not_cycle (TransGen.single hleads)

end Nget

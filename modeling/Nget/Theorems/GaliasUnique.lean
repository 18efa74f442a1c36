import Nget.Theorems.GaliasCycles
import Nget.Theorems.GaliasEntries

/-! Whether a group specification gives each newsgroup once. Groups are compared as pointers, that is by the
    entry that a name is found under, so two entries of one newsgroup give it twice; and a name that is an alias
    may be found under an earlier entry of which it is the newsgroup. -/

namespace Nget
open CString Relation Getgroups

/-! ### The names that a specification expands to -/

/-- A group is got for the name `t` when the specification is expanded. -/
inductive Galias.Leaf (ginfo : Galias) (dir : CacheDir) : Text → Text → Prop
  | name {names t : Text} (ht : t ∈ split ',' names) (hstar : t ≠ "*".toList) (hno : ∀ v, (t, v) ∈ ginfo.items → ',' ∉ v) :
      Leaf ginfo dir names t
  | cached {names t : Text} {files : List Text} (hstar : "*".toList ∈ split ',' names) (hdir : dir = .ok files)
      (ht : t ∈ files.filterMap cacheName) : Leaf ginfo dir names t
  | metagroup {names a v t : Text} (ha : a ∈ split ',' names) (hstar : a ≠ "*".toList)
      (hmem : (a, v) ∈ ginfo.items) (hcomma : ',' ∈ v)
      (h : Leaf ginfo dir v t) : Leaf ginfo dir names t

/-- The expansion of the specification comes to a `*`. -/
inductive Galias.Starred (ginfo : Galias) : Text → Prop
  | star {names : Text} (h : "*".toList ∈ split ',' names) : Starred ginfo names
  | metagroup {names a v : Text} (ha : a ∈ split ',' names) (hstar : a ≠ "*".toList)
      (hmem : (a, v) ∈ ginfo.items) (hcomma : ',' ∈ v)
      (h : Starred ginfo v) : Starred ginfo names

/-- A newsgroup that the specification leads to by metagroups and aliases. -/
def Galias.Reachable (prios : List Text) (ginfo : Galias) (dir : CacheDir) (names n : Text) : Prop :=
  ∃ t, ginfo.Leaf dir names t ∧ aliasTarget (ginfo.entries prios) t = n

section
variable {prios : List Text} {ginfo : Galias} {dir : CacheDir} {leaves : List Text} {st st' : Getgroups}

/-- One name of the specification leads to `t`. -/
def Galias.LeafOf (ginfo : Galias) (dir : CacheDir) (name t : Text) : Prop :=
  (name = "*".toList ∧ ∃ files, dir = .ok files ∧ t ∈ files.filterMap cacheName) ∨
  (name ≠ "*".toList ∧ (∀ v, (name, v) ∈ ginfo.items → ',' ∉ v) ∧ t = name) ∨
  name ≠ "*".toList ∧ ∃ v, (name, v) ∈ ginfo.items ∧ ',' ∈ v ∧ ginfo.Leaf dir v t

theorem leaf_iff {names t : Text} : ginfo.Leaf dir names t ↔ ∃ name ∈ split ',' names, ginfo.LeafOf dir name t := by
  constructor
  · intro h
    cases h with
    | name ht hstar hno => exact ⟨t, ht, Or.inr (Or.inl ⟨hstar, hno, rfl⟩)⟩
    | cached hstar hdir ht => exact ⟨_, hstar, Or.inl ⟨rfl, _, hdir, ht⟩⟩
    | metagroup ha hstar hmem hcomma h => exact ⟨_, ha, Or.inr (Or.inr ⟨hstar, _, hmem, hcomma, h⟩)⟩
  · rintro ⟨name, hname, ⟨rfl, files, hdir, ht⟩ | ⟨hstar, hno, rfl⟩ | ⟨hstar, v, hmem, hcomma, h⟩⟩
    · exact .cached hname hdir ht
    · exact .name hname hstar hno
    · exact .metagroup hname hstar hmem hcomma h

/-! ### The pointers of the vector -/

/-- The vector has the entries that these names are found under. -/
def Pushed (prios : List Text) (base : List (Text × Text)) (leaves : List Text) (st : Getgroups) : Prop :=
  ∃ entries, Indexed prios entries st.cfg ∧ Demanded base entries ∧
    st.groups = leaves.map (fun t => entries.findIdx? (mentions t)) ∧ ∀ t ∈ leaves, ∃ i, entries.findIdx? (mentions t) = some i

variable {base : List (Text × Text)}

theorem Pushed.push (h : Pushed prios base leaves st) (name : Text) : Pushed prios base (leaves ++ [name]) (st.push name) := by
  obtain ⟨entries, hindexed, hd, hgroups, hfound⟩ := h
  obtain ⟨more, i, hindexed', hd', hplace, hname⟩ := hindexed.getgroup hd name
  refine ⟨entries ++ more, hindexed', hd', ?_, fun t ht => ?_⟩
  · rw [List.map_append, List.map_singleton, hname]
    show st.groups ++ [(st.cfg.getgroup name).1] = _
    rw [hplace, hgroups]
    congr 1
    refine List.map_congr_left fun t ht => ?_
    obtain ⟨j, hj⟩ := hfound t ht
    rw [hj, findIdx?_append_some hj]
  · rcases List.mem_append.mp ht with ht | ht
    · obtain ⟨j, hj⟩ := hfound t ht
      exact ⟨j, findIdx?_append_some hj⟩
    · rw [List.mem_singleton.mp ht]
      exact ⟨i, hname⟩

theorem Pushed.pushes : ∀ {names : List Text} {leaves : List Text} {st : Getgroups}, Pushed prios base leaves st →
    Pushed prios base (leaves ++ names) (names.foldl (fun st name => st.push name) st)
  | [], leaves, st, h => by simpa using h
  | name :: names, leaves, st, h => by
    rw [List.foldl_cons, List.append_cons]
    exact (h.push name).pushes

/-- From one state to another the groups of some names were pushed. -/
def Pushes (prios : List Text) (base : List (Text × Text)) (st st' : Getgroups) (p : Text → Prop) : Prop :=
  ∀ leaves, Pushed prios base leaves st → ∃ new, Pushed prios base (leaves ++ new) st' ∧ ∀ t, t ∈ new ↔ p t

theorem expandName_pushes {expand : Text → Getgroups → Option (Except (Text × NgetConfig) Getgroups)} {name : Text}
    (hmgs : st.cfg.metagroups = (NgetConfig.setGalias prios ginfo).metagroups)
    (hexpand : ∀ v st st', st.cfg.metagroups = (NgetConfig.setGalias prios ginfo).metagroups → expand v st = some (.ok st') →
      Pushes prios base st st' (ginfo.Leaf dir v))
    (h : expandName dir expand name st = some (.ok st')) : Pushes prios base st st' (ginfo.LeafOf dir name) := by
  intro leaves hholds
  unfold expandName at h
  split at h
  · next hstar =>
    unfold dogetallcachedgroups at h
    cases dir with
    | error e => cases h
    | ok files =>
      cases h
      refine ⟨files.filterMap cacheName, hholds.pushes, fun t => ⟨fun ht => Or.inl ⟨hstar, files, rfl, ht⟩, ?_⟩⟩
      rintro (⟨-, files', hfiles, ht⟩ | ⟨hne, -⟩ | ⟨hne, -⟩)
      · cases hfiles
        exact ht
      · exact absurd hstar hne
      · exact absurd hstar hne
  · next hstar =>
    cases hfind : st.cfg.metagroups.find? name with
    | some mg =>
      rw [hfind] at h
      obtain ⟨new, hnew, hiff⟩ := hexpand mg.2 st st' hmgs h leaves hholds
      rw [hmgs] at hfind
      obtain rfl : mg.1 = name := (SortedMap.find?_eq_some_iff.mp hfind).2
      obtain ⟨hmem, hcomma⟩ := NgetConfig.setGalias_metagroups.mp hfind
      refine ⟨new, hnew, fun t => ⟨fun ht => Or.inr (Or.inr ⟨hstar, mg.2, hmem, hcomma, (hiff t).mp ht⟩), ?_⟩⟩
      rintro (⟨heq, -⟩ | ⟨-, hno, -⟩ | ⟨-, v, hv, -, ht⟩)
      · exact absurd heq hstar
      · exact absurd hcomma (hno mg.2 hmem)
      · cases SortedMap.eq_of_mem hv hmem rfl
        exact (hiff t).mpr ht
    | none =>
      rw [hfind] at h
      cases h
      have hno : ∀ v, (name, v) ∈ ginfo.items → ',' ∉ v := fun v hv hcomma => by
        have := (@NgetConfig.setGalias_metagroups prios ginfo name v).mpr ⟨hv, hcomma⟩
        rw [← hmgs, hfind] at this
        cases this
      refine ⟨[name], hholds.push name, fun t => ⟨fun ht => Or.inr (Or.inl ⟨hstar, hno, List.mem_singleton.mp ht⟩), ?_⟩⟩
      rintro (⟨heq, -⟩ | ⟨-, -, rfl⟩ | ⟨-, v, hv, hcomma, -⟩)
      · exact absurd heq hstar
      · exact List.mem_singleton_self _
      · exact absurd hcomma (hno v hv)

theorem expandNames_pushes {expand : Text → Getgroups → Option (Except (Text × NgetConfig) Getgroups)}
    (hkeep : ∀ v st r, expand v st = some r → (left r).metagroups = st.cfg.metagroups)
    (hexpand : ∀ v st st', st.cfg.metagroups = (NgetConfig.setGalias prios ginfo).metagroups → expand v st = some (.ok st') →
      Pushes prios base st st' (ginfo.Leaf dir v)) :
    ∀ (names : List Text) (st st' : Getgroups), st.cfg.metagroups = (NgetConfig.setGalias prios ginfo).metagroups →
      expandNames dir expand names st = some (.ok st') →
        Pushes prios base st st' fun t => ∃ name ∈ names, ginfo.LeafOf dir name t
  | [], st, st', _, h, leaves, hholds => by
    cases h
    exact ⟨[], by simpa using hholds, by simp⟩
  | name :: names, st, st', hmgs, h, leaves, hholds => by
    unfold expandNames at h
    generalize hname : expandName dir expand name st = r at h
    obtain _ | e | st₁ := r
    · cases h
    · cases h
    · obtain ⟨new₁, hnew₁, hiff₁⟩ := expandName_pushes hmgs hexpand hname leaves hholds
      have hmgs₁ := (expandName_metagroups hkeep hname).trans hmgs
      obtain ⟨new₂, hnew₂, hiff₂⟩ := expandNames_pushes hkeep hexpand names st₁ st' hmgs₁ h (leaves ++ new₁) hnew₁
      refine ⟨new₁ ++ new₂, by rwa [← List.append_assoc], fun t => ?_⟩
      rw [List.mem_append, hiff₁, hiff₂]
      simp only [List.mem_cons, exists_eq_or_imp]

/-- A call pushes the groups of the names that its specification expands to. -/
theorem dogetgroups_pushes : ∀ (fuel : Nat) (names : Text) (st st' : Getgroups),
    st.cfg.metagroups = (NgetConfig.setGalias prios ginfo).metagroups → dogetgroups dir fuel names st = some (.ok st') →
      Pushes prios base st st' (ginfo.Leaf dir names)
  | 0, _, _, _, _, h => by cases h
  | fuel + 1, names, st, st', hmgs, h => by
    intro leaves hholds
    obtain ⟨new, hnew, hiff⟩ := expandNames_pushes (dogetgroups_metagroups fuel) (dogetgroups_pushes fuel)
      (split ',' names) st st'
      hmgs h leaves hholds
    exact ⟨new, hnew, fun t => (hiff t).trans leaf_iff.symm⟩

/-! ### Calls that are not cut off -/

theorem expandNames_readable {expand : Text → Getgroups → Option (Except (Text × NgetConfig) Getgroups)}
    (hkeep : ∀ v st r, expand v st = some r → (left r).metagroups = st.cfg.metagroups)
    (hexpand : ∀ v st e, st.cfg.metagroups = (NgetConfig.setGalias prios ginfo).metagroups →
      (∀ e, dir = .error e → ¬ginfo.Starred v) →
      expand v st ≠ some (.error e)) :
    ∀ (names : List Text) (st : Getgroups) (e : Text × NgetConfig),
      st.cfg.metagroups = (NgetConfig.setGalias prios ginfo).metagroups →
      (∀ e, dir = .error e → ∀ a ∈ names, a ≠ "*".toList ∧ ∀ v, (a, v) ∈ ginfo.items → ',' ∈ v → ¬ginfo.Starred v) →
        expandNames dir expand names st ≠ some (.error e)
  | [], _, _, _, _, h => by cases h
  | name :: names, st, e, hmgs, hdir, h => by
    unfold expandNames at h
    generalize hname : expandName dir expand name st = r at h
    obtain _ | e' | st₁ := r
    · cases h
    · unfold expandName at hname
      split at hname
      · next hstar =>
        unfold dogetallcachedgroups at hname
        cases dir with
        | error e => exact (hdir e rfl name List.mem_cons_self).1 hstar
        | ok files => cases hname
      · cases hfind : st.cfg.metagroups.find? name with
        | some mg =>
          rw [hfind] at hname
          rw [hmgs] at hfind
          obtain rfl : mg.1 = name := (SortedMap.find?_eq_some_iff.mp hfind).2
          obtain ⟨hmem, hcomma⟩ := NgetConfig.setGalias_metagroups.mp hfind
          exact hexpand mg.2 st e' hmgs (fun e he => (hdir e he mg.1 List.mem_cons_self).2 mg.2 hmem hcomma) hname
        | none =>
          rw [hfind] at hname
          cases hname
    · have hmgs₁ := (expandName_metagroups hkeep hname).trans hmgs
      exact expandNames_readable hkeep hexpand names st₁ e hmgs₁
        (fun e he a ha => hdir e he a (List.mem_cons_of_mem name ha)) h

/-- Nothing is thrown where the directory of the caches is not needed, or can be read. -/
theorem dogetgroups_readable : ∀ (fuel : Nat) (names : Text) (st : Getgroups) (e : Text × NgetConfig),
    st.cfg.metagroups = (NgetConfig.setGalias prios ginfo).metagroups → (∀ e, dir = .error e → ¬ginfo.Starred names) →
      dogetgroups dir fuel names st ≠ some (.error e)
  | 0, _, _, _, _, _, h => by cases h
  | fuel + 1, names, st, e, hmgs, hdir, h => by
    refine expandNames_readable (dogetgroups_metagroups fuel) (dogetgroups_readable fuel) (split ',' names) st e hmgs
      (fun e he a ha => ?_) h
    have hstar : a ≠ "*".toList := by
      rintro rfl
      exact hdir e he (.star ha)
    exact ⟨hstar, fun v hmem hcomma hv => hdir e he (.metagroup ha hstar hmem hcomma hv)⟩

/-! ### The vector without repeated pointers -/

theorem mem_uniqueGroups_aux {g : Option Nat} : ∀ (tmp acc : List (Option Nat)),
    g ∈ tmp.foldl (fun groups g => if g ∈ groups then groups else groups ++ [g]) acc ↔ g ∈ acc ∨ g ∈ tmp
  | [], acc => by simp
  | g' :: tmp, acc => by
    rw [List.foldl_cons, mem_uniqueGroups_aux tmp]
    by_cases hmem : g' ∈ acc
    · rw [if_pos hmem, List.mem_cons]
      constructor
      · rintro (h | h)
        · exact Or.inl h
        · exact Or.inr (Or.inr h)
      · rintro (h | rfl | h)
        · exact Or.inl h
        · exact Or.inl hmem
        · exact Or.inr h
    · rw [if_neg hmem, List.mem_append, List.mem_singleton, List.mem_cons, or_assoc]

theorem mem_uniqueGroups {g : Option Nat} {tmp : List (Option Nat)} : g ∈ uniqueGroups tmp ↔ g ∈ tmp := by
  rw [uniqueGroups, mem_uniqueGroups_aux]
  simp

theorem nodup_uniqueGroups_aux : ∀ (tmp acc : List (Option Nat)), acc.Nodup →
    (tmp.foldl (fun groups g => if g ∈ groups then groups else groups ++ [g]) acc).Nodup
  | [], _, h => h
  | g :: tmp, acc, h => by
    rw [List.foldl_cons]
    by_cases hmem : g ∈ acc
    · rw [if_pos hmem]
      exact nodup_uniqueGroups_aux tmp acc h
    · rw [if_neg hmem]
      refine nodup_uniqueGroups_aux tmp (acc ++ [g]) ?_
      rw [List.nodup_append]
      refine ⟨h, List.nodup_singleton g, fun a ha b hb => ?_⟩
      rw [List.mem_singleton.mp hb]
      rintro rfl
      exact hmem ha

theorem nodup_uniqueGroups (tmp : List (Option Nat)) : (uniqueGroups tmp).Nodup := nodup_uniqueGroups_aux tmp [] List.nodup_nil

/-! ### The newsgroups of the vector -/

/-- The real names of the groups of the vector; none stands for a null pointer. -/
def Getgroups.newsgroups (st : Getgroups) : List (Option Text) :=
  st.groups.map fun g => (g.bind fun i => st.cfg.infos[i]?).map (·.group)

/-- The vector has these newsgroups, and each once. -/
def Getgroups.Exactly (st : Getgroups) (p : Text → Prop) : Prop :=
  st.newsgroups.Nodup ∧ ∀ g, g ∈ st.newsgroups ↔ ∃ n, g = some n ∧ p n

/-- What is found stands for the newsgroup of the first entry that mentions it. -/
theorem Indexed.newsgroup {entries : List (Text × Text)} {cfg : NgetConfig} (h : Indexed prios entries cfg) {t : Text} {i : Nat}
    (hi : entries.findIdx? (mentions t) = some i) : (cfg.infos[i]?).map (·.group) = some (foundTarget entries t) := by
  obtain ⟨hlt, hmention, hbefore⟩ := List.findIdx?_eq_some_iff_getElem.mp hi
  have hfind : entries.find? (mentions t) = some entries[i] := by
    rw [List.find?_eq_some_iff_getElem]
    exact ⟨hmention, i, hlt, rfl, fun j hj => by simpa using hbefore j hj⟩
  have hget : (cfg.infos[i]?).map (fun g => (g.alia, g.group)) = some entries[i] := by
    rw [← List.getElem?_map, h.infos, List.getElem?_eq_getElem hlt]
  rw [foundTarget, hfind]
  cases hinfo : cfg.infos[i]? with
  | none =>
    rw [hinfo] at hget
    cases hget
  | some g =>
    rw [hinfo] at hget
    rw [← Option.some.inj hget]
    rfl

/-- A group that is made on demand changes nothing of what other names stand for. -/
theorem foundTarget_demanded {entries : List (Text × Text)} (hd : Demanded base entries) (t : Text) :
    foundTarget entries t = foundTarget base t := by
  obtain ⟨demanded, rfl, -⟩ := hd
  unfold foundTarget
  rw [List.find?_append]
  cases hbase : base.find? (mentions t) with
  | some e => rfl
  | none =>
    rw [Option.none_or]
    cases hmore : (demanded.map fun n => (([] : Text), n)).find? (mentions t) with
    | none => rfl
    | some e =>
      obtain ⟨n, -, rfl⟩ := List.mem_map.mp (List.mem_of_find?_eq_some hmore)
      exact mentions_demanded.mp (List.find?_some hmore)

/-- Names that stand for one newsgroup have one pointer exactly if the galias section has them under one
    entry, or under none. -/
theorem findIdx?_demanded {entries : List (Text × Text)} (hd : Demanded base entries) {t t' : Text}
    (htarget : foundTarget base t = foundTarget base t') :
    entries.findIdx? (mentions t) = entries.findIdx? (mentions t') ↔
      base.findIdx? (mentions t) = base.findIdx? (mentions t') := by
  have hfound : ∀ {t : Text} {i : Nat}, base.findIdx? (mentions t) = some i → i < base.length := fun h =>
    (List.findIdx?_eq_some_iff_getElem.mp h).1
  have hnone : ∀ {t : Text}, base.findIdx? (mentions t) = none → foundTarget base t = t := fun h => by
    rw [foundTarget, List.find?_eq_none.mpr (by simpa using List.findIdx?_eq_none_iff.mp h)]
    rfl
  obtain ⟨demanded, rfl, -⟩ := hd
  rw [List.findIdx?_append, List.findIdx?_append]
  cases ht : base.findIdx? (mentions t) with
  | some i =>
    cases ht' : base.findIdx? (mentions t') with
    | some j => rw [Option.some_or, Option.some_or]
    | none =>
      rw [Option.some_or, Option.none_or]
      refine ⟨fun h => ?_, fun h => by cases h⟩
      obtain ⟨j, -, hj⟩ := Option.map_eq_some_iff.mp h.symm
      have := hfound ht
      omega
  | none =>
    cases ht' : base.findIdx? (mentions t') with
    | some j =>
      rw [Option.some_or, Option.none_or]
      refine ⟨fun h => ?_, fun h => by cases h⟩
      obtain ⟨i, -, hi⟩ := Option.map_eq_some_iff.mp h
      have := hfound ht'
      omega
    | none =>
      rw [hnone ht, hnone ht'] at htarget
      subst htarget
      exact ⟨fun _ => rfl, fun _ => rfl⟩

/-! ### Each newsgroup once -/

/-- No two entries of one newsgroup are what names of the specification are found under, and where a name is
    hidden other names lead to what it is the alias of and to what it is found as. -/
structure Galias.Unambiguous (prios : List Text) (ginfo : Galias) (dir : CacheDir) (names : Text) : Prop where
  one : ∀ t t', ginfo.Leaf dir names t → ginfo.Leaf dir names t' →
    foundTarget (ginfo.entries prios) t = foundTarget (ginfo.entries prios) t' →
      (ginfo.entries prios).findIdx? (mentions t) = (ginfo.entries prios).findIdx? (mentions t')
  hidden : ∀ t, ginfo.Leaf dir names t → Hidden (ginfo.entries prios) t →
    (∃ t', ginfo.Leaf dir names t' ∧ foundTarget (ginfo.entries prios) t' = aliasTarget (ginfo.entries prios) t) ∧
      ∃ t', ginfo.Leaf dir names t' ∧ aliasTarget (ginfo.entries prios) t' = t

/-- What is found is what is meant exactly if every hidden name is made up for. -/
theorem found_iff_meant {entries : List (Text × Text)} {p : Text → Prop} :
    (∀ n, (∃ t, p t ∧ foundTarget entries t = n) ↔ ∃ t, p t ∧ aliasTarget entries t = n) ↔
      ∀ t, p t → Hidden entries t → (∃ t', p t' ∧ foundTarget entries t' = aliasTarget entries t) ∧ ∃ t', p t' ∧
        aliasTarget entries t' = t := by
  constructor
  · intro h t ht hhidden
    exact ⟨(h _).mpr ⟨t, ht, rfl⟩, (h t).mp ⟨t, ht, foundTarget_of_hidden hhidden⟩⟩
  · intro h n
    constructor
    · rintro ⟨t, ht, rfl⟩
      by_cases hhidden : Hidden entries t
      · rw [foundTarget_of_hidden hhidden]
        exact (h t ht hhidden).2
      · exact ⟨t, ht, (foundTarget_of_not_hidden hhidden).symm⟩
    · rintro ⟨t, ht, rfl⟩
      by_cases hhidden : Hidden entries t
      · exact (h t ht hhidden).1
      · exact ⟨t, ht, foundTarget_of_not_hidden hhidden⟩

variable {cfg : NgetConfig} {names : Text}

/-- The entries of a configuration that was reached. -/
theorem NgetConfig.Reached.entries (h : cfg.Reached prios ginfo) :
    ∃ entries, Indexed prios entries cfg ∧ Demanded (ginfo.entries prios) entries := by
  refine h.keeps (P := fun cfg => ∃ entries, Indexed prios entries cfg ∧ Demanded (ginfo.entries prios) entries)
    ⟨_, setGalias_indexed, demanded_refl _⟩ ?_
  rintro name cfg ⟨entries, hindexed, hd⟩
  obtain ⟨more, -, hindexed', hd', -⟩ := hindexed.getgroup hd name
  exact ⟨entries ++ more, hindexed', hd'⟩

/-- The pointers of the vector are those that the names of `p` are found under, and each stands for a newsgroup. -/
structure Getgroups.Points (base entries : List (Text × Text)) (p : Text → Prop) (st : Getgroups) : Prop where
  once : st.groups.Nodup
  groups : ∀ g, g ∈ st.groups ↔ ∃ t, p t ∧ entries.findIdx? (mentions t) = g
  newsgroup : ∀ t, p t → ((entries.findIdx? (mentions t)).bind fun i => st.cfg.infos[i]?).map (·.group) =
    some (foundTarget base t)

namespace Getgroups.Points
variable {entries : List (Text × Text)} {p q : Text → Prop}

/-- The newsgroups differ when names that are found in different places stand for different ones. -/
theorem nodup_iff (h : st.Points base entries p) (hd : Demanded base entries) : st.newsgroups.Nodup ↔
    ∀ t t', p t → p t' → foundTarget base t = foundTarget base t' →
      base.findIdx? (mentions t) = base.findIdx? (mentions t') := by
  unfold Getgroups.newsgroups
  rw [List.nodup_map_iff_inj_on h.once]
  constructor
  · intro hinj t t' ht ht' htarget
    refine (findIdx?_demanded hd htarget).mp (hinj _ ((h.groups _).mpr ⟨t, ht, rfl⟩) _ ((h.groups _).mpr ⟨t', ht', rfl⟩) ?_)
    rw [h.newsgroup t ht, h.newsgroup t' ht', htarget]
  · intro hinj g hg g' hg' heq
    obtain ⟨t, ht, rfl⟩ := (h.groups g).mp hg
    obtain ⟨t', ht', rfl⟩ := (h.groups g').mp hg'
    rw [h.newsgroup t ht, h.newsgroup t' ht'] at heq
    have htarget := Option.some.inj heq
    exact (findIdx?_demanded hd htarget).mpr (hinj t t' ht ht' htarget)

theorem mem_newsgroups (h : st.Points base entries p) (g : Option Text) :
    g ∈ st.newsgroups ↔ ∃ n, g = some n ∧ ∃ t, p t ∧ foundTarget base t = n := by
  unfold Getgroups.newsgroups
  rw [List.mem_map]
  constructor
  · rintro ⟨g, hg, rfl⟩
    obtain ⟨t, ht, rfl⟩ := (h.groups g).mp hg
    exact ⟨_, h.newsgroup t ht, t, ht, rfl⟩
  · rintro ⟨n, rfl, t, ht, rfl⟩
    exact ⟨_, (h.groups _).mpr ⟨t, ht, rfl⟩, h.newsgroup t ht⟩

theorem exact_iff (h : st.Points base entries p) : (∀ g, g ∈ st.newsgroups ↔ ∃ n, g = some n ∧ q n) ↔
    ∀ n, (∃ t, p t ∧ foundTarget base t = n) ↔ q n := by
  simp only [h.mem_newsgroups]
  constructor
  · intro hall n
    constructor
    · intro hf
      obtain ⟨n', hn', hq⟩ := (hall (some n)).mp ⟨n, rfl, hf⟩
      cases hn'
      exact hq
    · intro hq
      obtain ⟨n', hn', hf⟩ := (hall (some n)).mpr ⟨n, rfl, hq⟩
      cases hn'
      exact hf
  · intro hall g
    simp only [hall]

end Getgroups.Points

/-- The vector of a call that returned. -/
theorem exactly_iff (hcfg : cfg.Reached prios ginfo) {fuel : Nat} {st : Getgroups}
    (hcall : getgroups dir fuel names cfg = some (.ok st)) :
    st.Exactly (ginfo.Reachable prios dir names) ↔ ginfo.Unambiguous prios dir names := by
  obtain ⟨r, hr, hst⟩ := Option.map_eq_some_iff.mp hcall
  obtain e | st₀ := r
  · cases hst
  · cases hst
    obtain ⟨entries₀, hindexed₀, hd₀⟩ := hcfg.entries
    obtain ⟨leaves, ⟨entries, hindexed, hd, hgroups, hfound⟩, hleaves⟩ :=
      dogetgroups_pushes fuel names { cfg } st₀ hcfg.metagroups hr []
      ⟨entries₀, hindexed₀, hd₀, rfl, fun t ht => by cases ht⟩
    rw [List.nil_append] at hgroups hfound
    have hpoints : Getgroups.Points (ginfo.entries prios) entries (ginfo.Leaf dir names)
        { st₀ with groups := uniqueGroups st₀.groups } := by
      refine ⟨nodup_uniqueGroups _, fun g => ?_, fun t ht => ?_⟩
      · rw [mem_uniqueGroups, hgroups, List.mem_map]
        simp only [hleaves]
      · obtain ⟨i, hi⟩ := hfound t ((hleaves t).mpr ht)
        rw [hi, ← foundTarget_demanded hd]
        exact hindexed.newsgroup hi
    have hexact := (@Getgroups.Points.exact_iff _ _ _ _ (ginfo.Reachable prios dir names) hpoints).trans found_iff_meant
    have hnodup := hpoints.nodup_iff hd
    exact ⟨fun h => ⟨hnodup.mp h.1, hexact.mp h.2⟩, fun h => ⟨hnodup.mpr h.one, hexact.mpr h.hidden⟩⟩

/-- A specification gives the newsgroups that it leads to, each once, exactly if it is unambiguous. -/
theorem getgroups_exactly_iff (hcfg : cfg.Reached prios ginfo) (hacyclic : ∀ b, ¬TransGen ginfo.Leads b b)
    (hdir : ∀ e, dir = .error e → ¬ginfo.Starred names) :
    (∃ fuel st, getgroups dir fuel names cfg = some (.ok st) ∧ st.Exactly (ginfo.Reachable prios dir names)) ↔
      ginfo.Unambiguous prios dir names := by
  constructor
  · rintro ⟨fuel, st, hcall, hexactly⟩
    exact (exactly_iff hcfg hcall).mp hexactly
  · intro h
    have hno : ¬ginfo.Cyclic names := by
      rintro ⟨a, -, -, b, -, hbb⟩
      exact hacyclic b hbb
    obtain ⟨fuel, hfuel⟩ := getgroups_ends hcfg hno dir
    obtain ⟨r, hcall⟩ := Option.isSome_iff_exists.mp hfuel
    obtain e | st := r
    · obtain ⟨r, hr, hst⟩ := Option.map_eq_some_iff.mp hcall
      obtain e₀ | st₀ := r
      · exact absurd hr (dogetgroups_readable fuel names { cfg } e₀ hcfg.metagroups hdir)
      · cases hst
    · exact ⟨fuel, st, hcall, (exactly_iff hcfg hcall).mpr h⟩

end

/-- Two metagroups that overlap, of which one is in the other, and two aliases. -/
def overlapGalias : Galias where
  items := ((((∅ : SortedMap Text Text).assign "a".toList "alt.x".toList).assign "b".toList "alt.y".toList).assign
    "m".toList "a,b".toList).assign "n".toList "b,m".toList

/-- How far a name is from the aliases. -/
def overlapRank (name : Text) : Nat := if name = "n".toList then 2 else if name = "m".toList then 1 else 0

theorem overlapGalias_acyclic (b : Text) : ¬TransGen overlapGalias.Leads b b := by
  have hitems : ∀ e ∈ overlapGalias.items.entries, ',' ∈ e.2 → ∀ b ∈ split ',' e.2, overlapRank b < overlapRank e.1 := by decide
  have hless : ∀ {a b}, TransGen overlapGalias.Leads a b → overlapRank b < overlapRank a := by
    intro a b hab
    induction hab with
    | single h =>
      obtain ⟨v, hmem, hcomma, hb, -⟩ := h
      exact hitems _ hmem hcomma _ hb
    | tail _ h ih =>
      obtain ⟨v, hmem, hcomma, hb, -⟩ := h
      exact (hitems _ hmem hcomma _ hb).trans ih
  exact fun hbb => Nat.lt_irrefl _ (hless hbb)

/-- Only the aliases are what the specifications lead to. -/
theorem overlapGalias_leaf {dir : CacheDir} {names t : Text} (h : overlapGalias.Leaf dir names t)
    (hnames : names ∈ ["m,n".toList, "a,b".toList, "b,m".toList]) : t ∈ ["a".toList, "b".toList] := by
  have hsplit : ∀ names ∈ ["m,n".toList, "a,b".toList, "b,m".toList], ∀ t ∈ split ',' names, t ≠ "*".toList ∧
      (t ∈ ["a".toList, "b".toList] ∨ ∃ e ∈ overlapGalias.items.entries, e.1 = t ∧ ',' ∈ e.2) := by decide
  have hitems : ∀ e ∈ overlapGalias.items.entries, ',' ∈ e.2 → e.2 ∈ ["m,n".toList, "a,b".toList, "b,m".toList] := by decide
  induction h with
  | name ht _ hno =>
    rcases (hsplit _ hnames _ ht).2 with hin | ⟨e, he, rfl, hcomma⟩
    · exact hin
    · exact absurd hcomma (hno e.2 he)
  | cached hstar _ _ => exact absurd rfl (hsplit _ hnames _ hstar).1
  | metagroup _ _ hmem hcomma _ ih => exact ih (hitems _ hmem hcomma)

theorem overlapGalias_unambiguous : overlapGalias.Unambiguous [] (.ok []) "m,n".toList where
  one t t' ht ht' := by
    have hall : ∀ t ∈ ["a".toList, "b".toList], ∀ t' ∈ ["a".toList, "b".toList],
        foundTarget (overlapGalias.entries []) t = foundTarget (overlapGalias.entries []) t' →
        (overlapGalias.entries []).findIdx? (mentions t) = (overlapGalias.entries []).findIdx? (mentions t') := by decide
    exact hall t (overlapGalias_leaf ht (by decide)) t' (overlapGalias_leaf ht' (by decide))
  hidden t ht hhidden := by
    have hall : ∀ t ∈ ["a".toList, "b".toList], foundTarget (overlapGalias.entries []) t ≠ t := by decide
    exact absurd (foundTarget_of_hidden hhidden) (hall t (overlapGalias_leaf ht (by decide)))

/-- Both newsgroups are found once, however many ways lead to them. -/
theorem getgroups_exactly_iff_overlap : ∃ fuel st,
    getgroups (.ok []) fuel "m,n".toList (NgetConfig.setGalias [] overlapGalias) = some (.ok st) ∧
      st.Exactly (overlapGalias.Reachable [] (.ok []) "m,n".toList) :=
  (getgroups_exactly_iff NgetConfig.Reached.loaded overlapGalias_acyclic fun e he => by cases he).mpr overlapGalias_unambiguous

/-- Two aliases of one newsgroup. -/
def twiceGalias : Galias where
  items := ((∅ : SortedMap Text Text).assign "a".toList "alt.x".toList).assign "b".toList "alt.x".toList

theorem twiceGalias_items : ∀ e ∈ twiceGalias.items.entries, ',' ∉ e.2 := by decide

theorem twiceGalias_acyclic (b : Text) : ¬TransGen twiceGalias.Leads b b := fun hbb => by
  obtain ⟨c, ⟨v, hmem, hcomma, -⟩, -⟩ := TransGen.head'_iff.mp hbb
  exact twiceGalias_items (b, v) hmem hcomma

/-- With both aliases the newsgroup is in the vector twice. -/
theorem getgroups_twice : ¬∀ (prios : List Text) (ginfo : Galias) (names : Text) (dir : CacheDir),
    (∀ b, ¬TransGen ginfo.Leads b b) → "*".toList ∉ split ',' names →
      ∃ fuel st, getgroups dir fuel names (NgetConfig.setGalias prios ginfo) = some (.ok st) ∧
        st.Exactly (ginfo.Reachable prios dir names) := by
  intro h
  obtain ⟨fuel, st, hcall, hexactly⟩ := h [] twiceGalias "a,b".toList (.ok []) twiceGalias_acyclic (by decide)
  have hun := (exactly_iff NgetConfig.Reached.loaded hcall).mp hexactly
  have hleaf : ∀ t ∈ ["a".toList, "b".toList], twiceGalias.Leaf (.ok []) "a,b".toList t := fun t ht =>
    .name ht (by rintro rfl; exact absurd ht (by decide)) fun v hv => twiceGalias_items (t, v) hv
  have hone := hun.one "a".toList "b".toList (hleaf _ (by decide)) (hleaf _ (by decide)) (by decide)
  exact absurd hone (by decide)

end Nget

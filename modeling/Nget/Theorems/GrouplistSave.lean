import Nget.Theorems.GrouplistRefines
import Mathlib

/-! Saving and loading a group list. The lines that a group is saved as are read back one by one; the descriptions
    go through `addserverdescription` again, server by server, and what they say in the end is what they said
    before, which makes them the same descriptions. -/

namespace Nget
open CString NntpCache

/-! ### Lines -/

theorem putLines_cons {line rest : Text} {lines : List Text} :
    putLines (line :: lines) ++ rest = line ++ '\n' :: (putLines lines ++ rest) := by
  simp [putLines]

theorem putLines_append {lines lines' : List Text} : putLines (lines ++ lines') = putLines lines ++ putLines lines' := by
  simp [putLines]

/-- There are no more lines than characters. -/
theorem length_putLines (lines : List Text) : lines.length ≤ (putLines lines).length := by
  induction lines with
  | nil => simp
  | cons line lines ih =>
    have hcons : putLines (line :: lines) = line ++ '\n' :: putLines lines := by simp [putLines]
    rw [hcons, List.length_cons, List.length_append, List.length_cons]
    omega

theorem bgetsp_line {line rest : Text} (h : OneLine line) : bgetsp (line ++ '\n' :: rest) = (line, rest) := by
  rw [bgetsp_eq, firstLine_append h.newline, afterLine_append h.newline, h.dropCr, h.cstr]

/-- Two fields on a line. -/
theorem btoks_fields {a b rest : Text} (ha : Clean a) (hb : Clean b) :
    btoks '\t' 2 true (joinWith '\t' [a, b] ++ '\n' :: rest) = (2, [a, b], rest) := by
  have hclean := clean_pair ha hb
  have hline : '\n' ∉ joinWith '\t' [a, b] := newline_joinWith hclean
  rw [btoks_eq (by decide), firstLine_append hline, afterLine_append hline, tokens_joinWith (by simp) hclean]
  exact congrArg (fun ts => (2, ts, rest)) (map_cstr_clean hclean)

/-- The last field, when its tabs do not separate. -/
theorem btoksLoop_last {b rest : Text} (hb : OneLine b) : btoksLoop '\t' 2 false 2 (b ++ '\n' :: rest) = (2, [b], rest) := by
  induction b with
  | nil => simp [btoksLoop]
  | cons c b ih =>
    have hc := hb c List.mem_cons_self
    rw [List.cons_append, btoksLoop, ih fun d hd => hb d (List.mem_cons_of_mem _ hd)]
    simp [hc.1, hc.2.1]

theorem btoksLoop_first {a f : Text} (ha : Clean a) {n : Nat} {ts : List Text} {rest : Text}
    (hf : btoksLoop '\t' 2 false 2 f = (n, ts, rest)) : btoksLoop '\t' 2 false 1 (a ++ '\t' :: f) = (n, a :: ts, rest) := by
  induction a with
  | nil => simp [btoksLoop, hf]
  | cons c a ih =>
    have hc := ha c List.mem_cons_self
    rw [List.cons_append, btoksLoop, ih fun d hd => ha d (List.mem_cons_of_mem _ hd)]
    simp [hc.1, hc.2.1, hc.2.2.1]

/-- Two fields on a line, the second one with any tabs. -/
theorem btoks_tabs {a b rest : Text} (ha : Clean a) (hb : OneLine b) :
    btoks '\t' 2 false (joinWith '\t' [a, b] ++ '\n' :: rest) = (2, [a, b], rest) := by
  have hline : joinWith '\t' [a, b] ++ '\n' :: rest = a ++ '\t' :: (b ++ '\n' :: rest) := by simp [joinWith]
  unfold btoks
  rw [hline, btoksLoop_first ha (btoksLoop_last hb)]
  simp [ha.cstr, hb.cstr]

/-! ### The servers of a line -/

namespace Grouplist
variable {ids : SortedSet UInt64}

theorem clean_serverids : Clean (serverids ids) := fun c hc => by
  rcases mem_joinWith hc with rfl | ⟨t, ht, hc⟩
  · decide
  · obtain ⟨s, -, rfl⟩ := List.mem_map.mp ht
    exact clean_printUlong s c hc

theorem comma_printUlong : ∀ t ∈ ids.toList.map printUlong, ',' ∉ t := fun t ht => by
  obtain ⟨s, -, rfl⟩ := List.mem_map.mp ht
  exact not_mem_printUlong (by decide)

/-- The servers of a description, which has one. -/
theorem split_serverids {s : UInt64} (hs : s ∈ ids) : split ',' (serverids ids) = ids.toList.map printUlong := by
  refine split_joinWith ?_ comma_printUlong
  exact fun h => List.ne_nil_of_mem (SortedSet.mem_toList.mpr hs) (List.map_eq_nil_iff.mp h)

/-- The servers of a group, which may have none. -/
theorem takeWhile_serverids : (split ',' (serverids ids)).takeWhile (fun cp => !cp.isEmpty) = ids.toList.map printUlong := by
  by_cases hnil : ids.toList = []
  · simp [serverids, hnil, joinWith, split]
  · obtain ⟨s, hs⟩ := List.exists_mem_of_ne_nil _ hnil
    rw [split_serverids (SortedSet.mem_toList.mp hs)]
    refine List.takeWhile_eq_self_iff.mpr fun t ht => ?_
    obtain ⟨s, -, rfl⟩ := List.mem_map.mp ht
    simp [(head?_printUlong s).1]

/-- A line that starts with a server does not start with a dot. -/
theorem head?_serverids {s : UInt64} (hs : s ∈ ids) : serverids ids ≠ [] ∧ (serverids ids).head? ≠ some '.' := by
  have hs := SortedSet.mem_toList.mpr hs
  unfold serverids
  cases hids : ids.toList with
  | nil =>
    rw [hids] at hs
    cases hs
  | cons t ts =>
    have hhead : (joinWith ',' ((t :: ts).map printUlong)).head? = (printUlong t).head? := head?_joinWith (head?_printUlong t).1
    have hne : (printUlong t).head? ≠ none := fun h => (head?_printUlong t).1 (List.head?_eq_none_iff.mp h)
    refine ⟨fun h => hne ?_, hhead ▸ (head?_printUlong t).2⟩
    rw [← hhead, h]
    rfl

end Grouplist
/-! ### A group -/

namespace GroupAvailability
open Servergroups
variable {hasserver : UInt64 → Bool} {g : GroupAvailability} {s : UInt64} {d desc : Text}

/-- The servers of a description put into the group one by one. -/
def describe (desc : Text) (ids : List UInt64) (g : GroupAvailability) : GroupAvailability :=
  ids.foldl (fun g s => (g.addserverdescription s desc).2) g

theorem describe_groupname : ∀ (ids : List UInt64) (g : GroupAvailability), (describe desc ids g).groupname = g.groupname
  | [], _ => rfl
  | s :: ids, g => (describe_groupname ids (g.addserverdescription s desc).2).trans addserverdescription_groupname

theorem describe_serverids : ∀ (ids : List UInt64) (g : GroupAvailability), (describe desc ids g).serverids = g.serverids
  | [], _ => rfl
  | s :: ids, g => (describe_serverids ids (g.addserverdescription s desc).2).trans addserverdescription_serverids

theorem describe_read (hdesc : OneLine desc) : ∀ (ids : List UInt64) (g : GroupAvailability), (∀ s ∈ ids, hasserver s = true) →
    Read hasserver g → Read hasserver (describe desc ids g)
  | [], _, _, h => h
  | s :: ids, g, hids, h => describe_read hdesc ids (g.addserverdescription s desc).2
      (fun t ht => hids t (List.mem_cons_of_mem _ ht)) (h.addserverdescription (hids s List.mem_cons_self) hdesc)

theorem describes_describe : ∀ (ids : List UInt64) (g : GroupAvailability), Servergroups.Sound g.servergroups →
    (Describes (describe desc ids g).servergroups s d ↔ if s ∈ ids then d = cstr desc else Describes g.servergroups s d)
  | [], _, _ => by simp [describe]
  | t :: ids, g, h => by
    refine (describes_describe ids _ (sound_addserverdescription h)).trans ?_
    rw [describes_addserverdescription h]
    by_cases hs : s ∈ ids
    · rw [if_pos hs, if_pos (List.mem_cons_of_mem _ hs)]
    · rw [if_neg hs]
      by_cases hst : s = t
      · rw [if_pos hst, if_pos (List.mem_cons.mpr (Or.inl hst))]
      · rw [if_neg hst, if_neg (List.not_mem_cons_of_ne_of_not_mem hst hs)]

/-- All the descriptions, one after the other. -/
def describeAll (es : List (Text × ServerGroupDescription)) (g : GroupAvailability) : GroupAvailability :=
  es.foldl (fun g e => describe e.2.description e.2.serverids.toList g) g

/-- What a line of a description needs to be read back. -/
def LineOf (hasserver : UInt64 → Bool) (e : Text × ServerGroupDescription) : Prop :=
  OneLine e.2.description ∧ (∃ s, s ∈ e.2.serverids) ∧ ∀ s ∈ e.2.serverids, hasserver s = true

theorem describeAll_spec :
    ∀ {es : List (Text × ServerGroupDescription)} {g : GroupAvailability}, (∀ e ∈ es, LineOf hasserver e) →
    Read hasserver g → Read hasserver (describeAll es g) ∧ (describeAll es g).groupname = g.groupname ∧
      (describeAll es g).serverids = g.serverids
  | [], _, _, h => ⟨h, rfl, rfl⟩
  | e :: es, g, hes, h => by
    obtain ⟨hdesc, -, hids⟩ := hes e List.mem_cons_self
    have hread := describe_read hdesc e.2.serverids.toList g (fun s hs => hids s (SortedSet.mem_toList.mp hs)) h
    obtain ⟨h', hname, hserverids⟩ := describeAll_spec (fun e he => hes e (List.mem_cons_of_mem _ he)) hread
    exact ⟨h', hname.trans (describe_groupname _ g), hserverids.trans (describe_serverids _ g)⟩

/-- As no server is in two of them, a description's servers have it in the end. -/
theorem describes_describeAll :
    ∀ {es : List (Text × ServerGroupDescription)} {g : GroupAvailability}, (∀ e ∈ es, LineOf hasserver e) →
    es.Pairwise (fun a b => ∀ s ∈ a.2.serverids, s ∉ b.2.serverids) → Read hasserver g →
    (Describes (describeAll es g).servergroups s d ↔ (∃ e ∈ es, cstr e.2.description = d ∧ s ∈ e.2.serverids) ∨
      Describes g.servergroups s d ∧ ∀ e ∈ es, s ∉ e.2.serverids)
  | [], _, _, _, _ => by simp [describeAll]
  | e :: es, g, hes, hdisjoint, h => by
    obtain ⟨hhead, htail⟩ := List.pairwise_cons.mp hdisjoint
    obtain ⟨hdesc, -, hids⟩ := hes e List.mem_cons_self
    have hread := describe_read hdesc e.2.serverids.toList g (fun s hs => hids s (SortedSet.mem_toList.mp hs)) h
    refine (describes_describeAll (fun e he => hes e (List.mem_cons_of_mem _ he)) htail hread).trans ?_
    rw [describes_describe _ g h.sound, List.forall_mem_cons]
    simp only [List.mem_cons, exists_eq_or_imp, SortedSet.mem_toList]
    by_cases hs : s ∈ e.2.serverids
    · have hnone : ∀ e' ∈ es, s ∉ e'.2.serverids := fun e' he' => hhead e' he' s hs
      have hother : ¬∃ e' ∈ es, cstr e'.2.description = d ∧ s ∈ e'.2.serverids := fun ⟨e', he', _, hs'⟩ => hnone e' he' hs'
      rw [if_pos hs]
      simp only [hs, hother, and_true, not_true, false_and, and_false, or_false, false_or]
      exact ⟨fun h => h.1.symm, fun h => ⟨h.symm, hnone⟩⟩
    · simp [hs]

/-- Descriptions that say the same are the same. -/
theorem servergroups_ext {m n : Servergroups} (hm : Keyed m) (hn : Keyed n) (hlinem : ∀ e ∈ m, OneLine e.2.description)
    (hlinen : ∀ e ∈ n, OneLine e.2.description) (h : ∀ s d, Describes m s d ↔ Describes n s d) : m = n := by
  have hsub : ∀ {m n : Servergroups}, Keyed m → Keyed n → (∀ e ∈ m, OneLine e.2.description) →
    (∀ e ∈ n, OneLine e.2.description) →
      (∀ s d, Describes m s d ↔ Describes n s d) → ∀ e ∈ m, e ∈ n := by
    intro m n hm hn hlinem hlinen h e he
    obtain ⟨s, hs⟩ := hm.served e he
    obtain ⟨e', he', hkey, -⟩ := (h s e.1).mp ⟨e, he, rfl, hs⟩
    have hdesc : e'.2.description = e.2.description := by
      rw [← (hlinen e' he').cstr, ← (hlinem e he).cstr, hn.key e' he', hm.key e he, hkey]
    have hids : e'.2.serverids = e.2.serverids := SortedSet.ext fun s => by
      rw [← describes_of_mem he, ← describes_of_mem he', hkey]
      exact (h s e.1).symm
    have heq : e' = e := Prod.ext hkey (by
      cases he2' : e'.2
      cases he2 : e.2
      rw [he2', he2] at hdesc hids
      cases hdesc
      cases hids
      rfl)
    exact heq ▸ he'
  exact SortedMap.ext_mem fun e => ⟨hsub hm hn hlinem hlinen h e, hsub hn hm hlinen hlinem (fun s d => (h s d).symm) e⟩

theorem Read.lineOf (h : Read hasserver g) : ∀ e ∈ g.servergroups.entries, LineOf hasserver e := fun e he =>
  ⟨h.description e he, h.sound.served e he, fun _ hs => h.described ((describes_of_mem he).mpr hs)⟩

/-- The descriptions of a group, put into one that has none, are there again. -/
theorem describeAll_entries {g' : GroupAvailability} (h : Read hasserver g) (h' : Read hasserver g')
    (hname : g'.groupname = g.groupname) (hids : g'.serverids = g.serverids) (hnone : g'.servergroups = ∅) :
    describeAll g.servergroups.entries g' = g := by
  obtain ⟨hread, hname', hids'⟩ := describeAll_spec h.lineOf h'
  have hdisjoint : g.servergroups.entries.Pairwise fun a b => ∀ s ∈ a.2.serverids, s ∉ b.2.serverids :=
    g.servergroups.sorted.imp_of_mem fun {a b} ha hb hlt s hsa hsb =>
      absurd (h.sound.once ((describes_of_mem ha).mpr hsa) ((describes_of_mem hb).mpr hsb)) hlt.ne
  have hsgs : (describeAll g.servergroups.entries g').servergroups = g.servergroups := by
    refine servergroups_ext hread.sound.toKeyed h.sound.toKeyed hread.description h.description fun s d => ?_
    rw [describes_describeAll h.lineOf hdisjoint h', hnone]
    simp only [not_describes_empty, false_and, or_false]
    constructor
    · rintro ⟨e, he, rfl, hs⟩
      exact ⟨e, he, (h.sound.key e he).symm, hs⟩
    · rintro ⟨e, he, rfl, hs⟩
      exact ⟨e, he, h.sound.key e he, hs⟩
  cases hg : describeAll g.servergroups.entries g'
  cases g
  rw [hg] at hname' hids' hsgs
  cases hname'.trans hname
  cases hids'.trans hids
  cases hsgs
  rfl

end GroupAvailability
/-! ### What the reader makes of the lines -/

namespace GrouplistReader
open GroupAvailability
variable {hasserver : UInt64 → Bool} {rest : Text}

theorem readServers_configured :
    ∀ (ids : List UInt64) (r : GrouplistReader) (gd : GroupAvailability), (∀ s ∈ ids, hasserver s = true) →
    readServers hasserver (ids.map printUlong) r gd = (r, { gd with serverids := ids.foldl SortedSet.insert gd.serverids })
  | [], _, _, _ => rfl
  | s :: ids, r, gd, h => by
    rw [List.map_cons, readServers, atoul_print, if_pos (h s List.mem_cons_self)]
    exact readServers_configured ids r _ fun t ht => h t (List.mem_cons_of_mem _ ht)

theorem readDescriptionServers_configured {desc : Text} : ∀ (ids : List UInt64) (r : GrouplistReader) (gd : GroupAvailability),
    (∀ s ∈ ids, hasserver s = true) →
      readDescriptionServers hasserver desc (ids.map printUlong) r gd = (r, describe desc ids gd)
  | [], _, _, _ => rfl
  | s :: ids, r, gd, h => by
    rw [List.map_cons, readDescriptionServers, atoul_print, if_pos (h s List.mem_cons_self)]
    exact readDescriptionServers_configured ids r _ fun t ht => h t (List.mem_cons_of_mem _ ht)

/-- The line that ends a section is read as such. -/
theorem endLine_dot {r : GrouplistReader} (h : r.f = '.' :: '\n' :: rest) : r.endLine.f = rest := by
  have hline : bgetsp r.f = (['.'], rest) := by
    rw [h]
    exact @bgetsp_line ['.'] rest (by decide)
  unfold endLine
  rw [hline]
  rfl

theorem head?_line {line f : Text} (h : line ≠ [] ∧ line.head? ≠ some '.') :
    (line ++ f).head? ≠ some '.' ∧ (line ++ f).isEmpty = false := by
  rw [List.head?_append_of_ne_nil _ h.1]
  exact ⟨h.2, by simp [h.1]⟩

theorem head?_fields {a b : Text} (h : a ≠ [] ∧ a.head? ≠ some '.') :
    joinWith '\t' [a, b] ≠ [] ∧ (joinWith '\t' [a, b]).head? ≠ some '.' := by
  rw [head?_joinWith h.1]
  exact ⟨by simp [joinWith], h.2⟩

/-- The lines of the descriptions, up to the dot. -/
theorem readDescriptions_lines :
    ∀ (es : List (Text × ServerGroupDescription)) (fuel : Nat) (r : GrouplistReader) (gd : GroupAvailability),
    (∀ e ∈ es, LineOf hasserver e) → es.length ≤ fuel →
    r.f = NntpCache.putLines (es.map (fun e => Grouplist.descriptionLine e.2) ++ [['.']]) ++ rest →
    ∃ r', readDescriptions hasserver fuel r gd = (r', describeAll es gd) ∧ r'.f = rest
  | [], fuel, r, gd, _, _, hf => by
    have hf : r.f = '.' :: '\n' :: rest := hf
    refine ⟨{ r with curline := r.curline + 1 }.endLine, ?_, @endLine_dot rest { r with curline := r.curline + 1 } hf⟩
    unfold readDescriptions
    simp [hf, describeAll]
  | e :: es, 0, _, _, _, hfuel, _ => absurd hfuel (by simp)
  | e :: es, fuel + 1, r, gd, hes, hfuel, hf => by
    obtain ⟨hdesc, ⟨s, hs⟩, hids⟩ := hes e List.mem_cons_self
    rw [List.map_cons, List.cons_append, putLines_cons] at hf
    obtain ⟨f, hlines⟩ : ∃ f, f =
        NntpCache.putLines (es.map (fun e => Grouplist.descriptionLine e.2) ++ [['.']]) ++ rest := ⟨_, rfl⟩
    rw [← hlines] at hf
    obtain ⟨hdot, hempty⟩ : r.f.head? ≠ some '.' ∧ r.f.isEmpty = false :=
      hf ▸ head?_line (head?_fields (Grouplist.head?_serverids hs))
    have htoks : btoks '\t' 2 false r.f = (2, [Grouplist.serverids e.2.serverids, e.2.description], f) := by
      rw [hf, Grouplist.descriptionLine, hdesc.cstr]
      exact btoks_tabs Grouplist.clean_serverids hdesc
    obtain ⟨r', hread, hrest⟩ := readDescriptions_lines es fuel { r with curline := r.curline + 1, f }
      (describe e.2.description e.2.serverids.toList gd) (fun e he => hes e (List.mem_cons_of_mem _ he))
      (Nat.le_of_succ_le_succ hfuel) hlines
    refine ⟨r', ?_, hrest⟩
    unfold readDescriptions
    dsimp only
    rw [hempty, if_neg (by simp), if_neg hdot, htoks]
    have hservers : split ',' ([Grouplist.serverids e.2.serverids, e.2.description].getD 0 []) =
      e.2.serverids.toList.map printUlong :=
      Grouplist.split_serverids hs
    dsimp only
    rw [if_pos rfl, hservers, readDescriptionServers_configured _ _ _ fun s hs => hids s (SortedSet.mem_toList.mp hs)]
    exact hread

/-- A group's lines are read as the group. -/
theorem readGroup_lines {gd : GroupAvailability} (h : Read hasserver gd) (hlisted : gd.Listed) {r : GrouplistReader}
    (hf : r.f = NntpCache.putLines (Grouplist.groupLines gd) ++ rest) :
    ∃ r', readGroup hasserver r = (r', .ok (some gd)) ∧ r'.f = rest := by
  obtain ⟨f, hlines⟩ : ∃ f, f =
    NntpCache.putLines (gd.servergroups.entries.map (fun e => Grouplist.descriptionLine e.2) ++ [['.']]) ++ rest :=
    ⟨_, rfl⟩
  rw [Grouplist.groupLines, putLines_cons, ← hlines, h.groupname.cstr] at hf
  have htoks : btoks '\t' 2 true r.f = (2, [Grouplist.serverids gd.serverids, gd.groupname], f) := by
    rw [hf]
    exact btoks_fields Grouplist.clean_serverids h.groupname
  obtain ⟨fuel, hfuel⟩ : ∃ fuel, r.f.length = fuel + 1 := by
    rw [hf]
    exact ⟨_, by rw [List.length_append, List.length_cons, ← Nat.add_assoc]⟩
  have hservers : (split ',' ([Grouplist.serverids gd.serverids, gd.groupname].getD 0 [])).takeWhile (fun cp => !cp.isEmpty) =
      gd.serverids.toList.map printUlong := Grouplist.takeWhile_serverids
  have hread : Read hasserver { (⟨gd.groupname, ∅, ∅⟩ : GroupAvailability) with serverids := gd.serverids } :=
    { read_new h.groupname with serverids := h.serverids }
  obtain ⟨r', hdescs, hrest⟩ := readDescriptions_lines gd.servergroups.entries f.length { r with curline := r.curline + 1, f }
    { (⟨gd.groupname, ∅, ∅⟩ : GroupAvailability) with serverids := gd.serverids } h.lineOf
    (by
      rw [hlines, List.length_append]
      refine Nat.le_add_right_of_le (le_trans ?_ (length_putLines _))
      simp) hlines
  rw [describeAll_entries h hread rfl rfl rfl] at hdescs
  have hnonempty : (!gd.servergroups.isEmpty || !gd.serverids.isEmpty) = true := by
    have := (listed_iff h.sound.toKeyed).mp hlisted
    revert this
    cases gd.servergroups.isEmpty <;> cases gd.serverids.isEmpty <;> simp
  refine ⟨r', ?_, hrest⟩
  unfold readGroup
  rw [hfuel]
  unfold readGroupLoop
  dsimp only
  rw [if_neg (by simp [hf]), htoks]
  dsimp only
  rw [if_pos rfl, hservers, readServers_configured _ _ _ fun s hs => h.serverids s (SortedSet.mem_toList.mp hs)]
  dsimp only
  rw [SortedSet.foldl_insert_toList]
  have hdescs' : readDescriptions hasserver f.length { r with curline := r.curline + 1, f }
      ⟨[Grouplist.serverids gd.serverids, gd.groupname].getD 1 [], gd.serverids, ∅⟩ = (r', gd) := hdescs
  rw [hdescs']
  dsimp only
  rw [if_pos hnonempty]

/-- The lines of all groups are read as the groups, up to the end of the file. -/
theorem readGroups_lines : ∀ (es : List (Text × GroupAvailability)) (fuel : Nat) (r : GrouplistReader)
    (groups : SortedMap Text GroupAvailability), (∀ e ∈ es, GroupRead hasserver e) → es.length ≤ fuel →
    r.f = NntpCache.putLines (es.flatMap fun e => Grouplist.groupLines e.2) →
    (readGroups hasserver fuel r groups).2.1 = es.foldl (fun groups e => groups.insertNew e.1 e.2) groups
  | [], fuel, r, groups, _, _, hf => by
    have hread : readGroup hasserver r = (r, .ok none) := by
      unfold readGroup readGroupLoop
      rw [hf]
      rfl
    unfold readGroups
    rw [hread]
    rfl
  | _ :: _, 0, _, _, _, hfuel, _ => absurd hfuel (by simp)
  | e :: es, fuel + 1, r, groups, hes, hfuel, hf => by
    obtain ⟨hname, hgd, hlisted⟩ := hes e List.mem_cons_self
    rw [List.flatMap_cons, putLines_append] at hf
    obtain ⟨r', hread, hrest⟩ := readGroup_lines hgd hlisted hf
    unfold readGroups
    rw [hread]
    dsimp only
    rw [hname, List.foldl_cons]
    exact readGroups_lines es fuel r' _ (fun e he => hes e (List.mem_cons_of_mem _ he)) (Nat.le_of_succ_le_succ hfuel) hrest

/-- The lines of the servers' infos, up to the dot. -/
theorem readServerInfo_lines : ∀ (es : List (UInt64 × GrouplistServerInfo)) (fuel : Nat) (r : GrouplistReader)
    (serverInfo : SortedMap UInt64 GrouplistServerInfo), (∀ e ∈ es, ServerRead hasserver e) → es.length ≤ fuel →
    r.f = NntpCache.putLines (es.map Grouplist.grouplistServerLine ++ [['.']]) ++ rest →
    ∃ r', readServerInfo hasserver fuel r serverInfo =
      (none, r', es.foldl (fun serverInfo e => serverInfo.insertNew e.1 e.2) serverInfo) ∧ r'.f = rest
  | [], fuel, r, serverInfo, _, _, hf => by
    have hf : r.f = '.' :: '\n' :: rest := hf
    refine ⟨{ r with curline := r.curline + 1 }.endLine, ?_, @endLine_dot rest { r with curline := r.curline + 1 } hf⟩
    unfold readServerInfo
    simp [hf]
  | _ :: _, 0, _, _, _, hfuel, _ => absurd hfuel (by simp)
  | e :: es, fuel + 1, r, serverInfo, hes, hfuel, hf => by
    obtain ⟨hid, hserver, hdate⟩ := hes e List.mem_cons_self
    rw [List.map_cons, List.cons_append, putLines_cons] at hf
    obtain ⟨f, hlines⟩ : ∃ f, f = NntpCache.putLines (es.map Grouplist.grouplistServerLine ++ [['.']]) ++ rest := ⟨_, rfl⟩
    rw [← hlines] at hf
    obtain ⟨hdot, hempty⟩ : r.f.head? ≠ some '.' ∧ r.f.isEmpty = false := hf ▸ head?_line (head?_fields (head?_printUlong e.1))
    have htoks : btoks '\t' 2 true r.f = (2, [printUlong e.1, e.2.date], f) := by
      rw [hf, Grouplist.grouplistServerLine, hdate.cstr]
      exact btoks_fields (clean_printUlong e.1) hdate
    obtain ⟨r', hread, hrest⟩ :=
      readServerInfo_lines es fuel { r with curline := r.curline + 1, f } (serverInfo.insertNew e.1 e.2)
      (fun e he => hes e (List.mem_cons_of_mem _ he)) (Nat.le_of_succ_le_succ hfuel) hlines
    have hserverid : atoul ([printUlong e.1, e.2.date].getD 0 []) = e.1 := atoul_print e.1
    have hinfo : (⟨e.1, [printUlong e.1, e.2.date].getD 1 []⟩ : GrouplistServerInfo) = e.2 := by
      rw [← hid]
      rfl
    refine ⟨r', ?_, hrest⟩
    unfold readServerInfo
    dsimp only
    rw [hempty, if_neg (by simp), if_neg hdot, htoks]
    dsimp only
    rw [if_pos rfl, hserverid, if_pos hserver, hinfo]
    exact hread

end GrouplistReader
/-! ### What the calls keep -/

/-- What a call puts into the list can stand in its field, and its server is configured. -/
def GrouplistCall.Savable (hasserver : UInt64 → Bool) : GrouplistCall → Prop
  | addgroup serverid name => hasserver serverid = true ∧ Clean name
  | addgroupdesc serverid name desc => hasserver serverid = true ∧ Clean name ∧ OneLine desc
  | flushserver _ => True
  | setDate serverid date => hasserver serverid = true ∧ Clean date

/-- Of a date it is enough that it ends in its line. -/
def GrouplistCall.Linewise (hasserver : UInt64 → Bool) : GrouplistCall → Prop
  | setDate _ date => '\n' ∉ cstr date
  | call => call.Savable hasserver

theorem GrouplistCall.Savable.linewise {hasserver : UInt64 → Bool} {call : GrouplistCall} (h : call.Savable hasserver) :
    call.Linewise hasserver := by
  cases call with
  | setDate serverid date =>
    obtain ⟨-, hdate⟩ := h
    intro hnewline
    rw [hdate.cstr] at hnewline
    exact hdate.newline hnewline
  | addgroup | addgroupdesc | flushserver => exact h

namespace Servergroups

/-- A server that is taken out of descriptions leaves their texts. -/
theorem description_eraseServers {serverid : UInt64} : ∀ (gds : List (Text × ServerGroupDescription)) (sgs : Servergroups),
    (∀ e ∈ gds, OneLine e.2.description) → (∀ e ∈ sgs, OneLine e.2.description) →
    ∀ e ∈ eraseServers serverid gds sgs, OneLine e.2.description
  | [], _, _, h => h
  | gd :: gds, sgs, hgds, h => by
    refine description_eraseServers gds _ (fun e he => hgds e (List.mem_cons_of_mem _ he)) fun e he => ?_
    rcases mem_eraseServer.mp he with ⟨he, -⟩ | ⟨rfl, -⟩
    · exact h e he
    · exact hgds gd List.mem_cons_self

end Servergroups

theorem GroupAvailability.Read.flushed {hasserver : UInt64 → Bool} {g : GroupAvailability} {serverid : UInt64}
    (h : g.Read hasserver) : (g.flushed serverid).Read hasserver where
  groupname := h.groupname
  serverids s hs := h.serverids s (SortedSet.mem_erase.mp hs).1
  description := Servergroups.description_eraseServers _ _ h.description h.description
  described hd := h.described ((describes_flushed h.sound.toKeyed).mp hd).1
  sound := sound_flushed h.sound

namespace Grouplist
open GrouplistReader GroupAvailability
variable {hasserver : UInt64 → Bool} {gl : Grouplist} {serverid : UInt64} {name date : Text}

/-- Every group of the list could have been read from a file. -/
def GroupsRead (hasserver : UInt64 → Bool) (gl : Grouplist) : Prop := ∀ e ∈ gl.groups, GroupRead hasserver e

/-- Everything in the list could have been read from a file. -/
structure Savable (hasserver : UInt64 → Bool) (gl : Grouplist) : Prop where
  groups : ∀ e ∈ gl.groups, GroupRead hasserver e
  serverInfo : ∀ e ∈ gl.serverInfo, ServerRead hasserver e

/-- What could have been read from a file and dates that end in their lines. -/
structure Linewise (hasserver : UInt64 → Bool) (gl : Grouplist) : Prop where
  groups : gl.GroupsRead hasserver
  dates : ∀ e ∈ gl.serverInfo, '\n' ∉ cstr e.2.date

theorem GroupsRead.sound (h : gl.GroupsRead hasserver) : gl.Sound where
  name e he := (h e he).1
  group e he := ⟨(h e he).2.1.sound, (h e he).2.2⟩

theorem Savable.sound (h : gl.Savable hasserver) : gl.Sound := GroupsRead.sound h.groups

theorem Savable.linewise (h : gl.Savable hasserver) : gl.Linewise hasserver where
  groups := h.groups
  dates e he := by
    obtain ⟨-, -, hdate⟩ := h.serverInfo e he
    rw [hdate.cstr]
    exact hdate.newline

theorem findGroup_read (h : gl.GroupsRead hasserver) (hname : Clean name) : (gl.findGroup name).Read hasserver := by
  unfold findGroup
  cases hfind : gl.groups.find? (cstr name) with
  | some e => exact (h e (SortedMap.find?_eq_some_iff.mp hfind).1).2.1
  | none => exact read_new hname

theorem GroupsRead.assign {gl' : Grouplist} {g : GroupAvailability} (h : gl.GroupsRead hasserver) (hsound : gl'.Sound)
    (hgroups : gl'.groups = gl.groups.assign (cstr name) g) (hread : g.Read hasserver) : gl'.GroupsRead hasserver := by
  intro e he
  refine ⟨hsound.name e he, ?_, (hsound.group e he).listed⟩
  rcases SortedMap.mem_assign.mp (hgroups ▸ he) with rfl | ⟨he, -⟩
  · exact hread
  · exact (h e he).2.1

theorem GroupsRead.run (h : gl.GroupsRead hasserver) {call : GrouplistCall} (hcall : call.Linewise hasserver) :
    (call.run gl).GroupsRead hasserver := by
  cases call with
  | addgroup serverid name =>
    obtain ⟨hserver, hname⟩ := hcall
    exact h.assign (addgroup_sound h.sound) addgroup_groups ((findGroup_read h hname).insert hserver)
  | addgroupdesc serverid name desc =>
    obtain ⟨hserver, hname, hdesc⟩ := hcall
    exact h.assign (addgroupdesc_sound h.sound) addgroupdesc_groups ((findGroup_read h hname).addserverdescription hserver hdesc)
  | flushserver serverid =>
    intro e he
    obtain ⟨g, hg, rfl, hlisted⟩ := (mem_flushserver h.sound).mp he
    exact ⟨(h g hg).1, (h g hg).2.1.flushed, hlisted⟩
  | setDate serverid date => exact fun e he => h e (setDate_groups ▸ he)

theorem addgroup_serverInfo : (gl.addgroup serverid name).serverInfo = gl.serverInfo := by
  unfold addgroup
  dsimp only
  split <;> rfl

/-- The date is set in the server's info, which may be a new one. -/
theorem setDate_forall {P : UInt64 × GrouplistServerInfo → Prop} (h : ∀ e ∈ gl.serverInfo, P e)
    (hnew : P (serverid, ⟨serverid, []⟩)) (hdate : ∀ info, P (serverid, info) → P (serverid, { info with date })) :
    ∀ e ∈ (gl.setDate serverid date).serverInfo, P e := by
  have hall : ∀ e ∈ (gl.getserverinfo serverid).serverInfo, P e := fun e he => by
    rcases SortedMap.mem_insertNew he with he | rfl
    · exact h e he
    · exact hnew
  unfold setDate
  dsimp only
  cases hfind : (gl.getserverinfo serverid).serverInfo.find? serverid with
  | none => exact hall
  | some e =>
    obtain ⟨he, rfl⟩ := SortedMap.find?_eq_some_iff.mp hfind
    intro x hx
    rcases SortedMap.mem_assign.mp hx with rfl | ⟨hx, -⟩
    · exact hdate e.2 (hall e he)
    · exact hall x hx

theorem run_savable (h : gl.Savable hasserver) {call : GrouplistCall} (hcall : call.Savable hasserver) :
    (call.run gl).Savable hasserver := by
  refine ⟨GroupsRead.run h.groups hcall.linewise, ?_⟩
  cases call with
  | addgroup serverid name =>
    unfold GrouplistCall.run
    rw [addgroup_serverInfo]
    exact h.serverInfo
  | addgroupdesc serverid name desc => exact h.serverInfo
  | flushserver serverid => exact fun e he => h.serverInfo e (SortedMap.mem_erase.mp he).1
  | setDate serverid date =>
    obtain ⟨hserver, hdate⟩ := hcall
    exact setDate_forall h.serverInfo ⟨rfl, hserver, fun _ hc => by cases hc⟩ fun info hinfo => ⟨hinfo.1, hserver, hdate⟩

theorem runs_savable : ∀ {calls : List GrouplistCall} {gl : Grouplist}, (∀ call ∈ calls, call.Savable hasserver) →
    gl.Savable hasserver → (GrouplistCall.runs calls gl).Savable hasserver
  | [], _, _, h => h
  | call :: calls, gl, hcalls, h => @runs_savable calls (call.run gl)
      (fun c hc => hcalls c (List.mem_cons_of_mem _ hc)) (run_savable h (hcalls call List.mem_cons_self))

theorem run_linewise (h : gl.Linewise hasserver) {call : GrouplistCall} (hcall : call.Linewise hasserver) :
    (call.run gl).Linewise hasserver := by
  refine ⟨h.groups.run hcall, ?_⟩
  cases call with
  | addgroup serverid name =>
    unfold GrouplistCall.run
    rw [addgroup_serverInfo]
    exact h.dates
  | addgroupdesc serverid name desc => exact h.dates
  | flushserver serverid => exact fun e he => h.dates e (SortedMap.mem_erase.mp he).1
  | setDate serverid date => exact setDate_forall h.dates List.not_mem_nil fun _ _ => hcall

theorem runs_linewise : ∀ {calls : List GrouplistCall} {gl : Grouplist}, (∀ call ∈ calls, call.Linewise hasserver) →
    gl.Linewise hasserver → (GrouplistCall.runs calls gl).Linewise hasserver
  | [], _, _, h => h
  | call :: calls, gl, hcalls, h => @runs_linewise calls (call.run gl)
      (fun c hc => hcalls c (List.mem_cons_of_mem _ hc)) (run_linewise h (hcalls call List.mem_cons_self))

theorem load_savable {filename : Text} {file : Option Text} : (load hasserver filename file).Savable hasserver :=
  ⟨load_groups, load_serverInfo⟩

/-! ### Saved and loaded -/

/-- There are no more groups than lines. -/
theorem length_groupLines : ∀ es : List (Text × GroupAvailability), es.length ≤ (es.flatMap fun e => groupLines e.2).length
  | [] => Nat.le_refl _
  | e :: es => by
    have ih := length_groupLines es
    rw [List.flatMap_cons, List.length_append, groupLines, List.length_cons, List.length_cons]
    omega

/-- What is written is read back as it was. -/
theorem load_grouplistLines {filename : Text} (h : gl.Savable hasserver) :
    (load hasserver filename (some (putLines gl.grouplistLines))).serverInfo = gl.serverInfo ∧
      (load hasserver filename (some (putLines gl.grouplistLines))).groups = gl.groups := by
  obtain ⟨groups, hgroups⟩ : ∃ groups, groups = putLines (gl.groups.entries.flatMap fun e => groupLines e.2) := ⟨_, rfl⟩
  obtain ⟨f, hlines⟩ : ∃ f, f = putLines (gl.serverInfo.entries.map grouplistServerLine ++ [['.']]) ++ groups := ⟨_, rfl⟩
  have htext : putLines gl.grouplistLines = glcacheVersion ++ '\n' :: f := by
    have hcons := @putLines_cons glcacheVersion [] (gl.serverInfo.entries.map grouplistServerLine ++ [['.']] ++
      gl.groups.entries.flatMap fun e => groupLines e.2)
    rw [List.append_nil, List.append_nil] at hcons
    rw [grouplistLines, hcons, putLines_append, hlines, hgroups]
  obtain ⟨r, hstart, hr⟩ := @readServerInfo_lines hasserver groups gl.serverInfo.entries f.length
    { f, curline := 0 + 1 } ∅ h.serverInfo
    (by
      rw [hlines, List.length_append]
      refine Nat.le_add_right_of_le (le_trans ?_ (length_putLines _))
      simp) hlines
  have hstart' : start hasserver (glcacheVersion ++ '\n' :: f) = (none, r, gl.serverInfo) := by
    have hempty : (glcacheVersion ++ '\n' :: f).isEmpty = false := rfl
    have hversion : bgetsp (glcacheVersion ++ '\n' :: f) = (glcacheVersion, f) := bgetsp_line (by decide)
    unfold start
    dsimp only
    rw [hempty, hversion]
    dsimp only
    rw [if_neg (by simp), if_pos rfl, hstart, SortedMap.foldl_insertNew_entries]
  have hgroups' := readGroups_lines gl.groups.entries r.f.length r ∅ h.groups
    (by
      rw [hr, hgroups]
      exact (length_groupLines _).trans (length_putLines _)) (hr.trans hgroups)
  unfold load
  dsimp only
  rw [htext, hstart']
  exact ⟨rfl, hgroups'.trans SortedMap.foldl_insertNew_entries⟩

theorem save_eq_some {text : Text} (h : gl.save = some text) : text = putLines gl.grouplistLines := by
  unfold save at h
  split at h
  · cases h
  · exact (Option.some.inj h).symm

end Grouplist

/-- Whatever the group list was loaded from and whatever calls were made, what it is saved as is loaded again with
    the same dates and the same groups, hence the same servers and descriptions of them. -/
theorem grouplist_load_save {hasserver : UInt64 → Bool} {filename text : Text} {file : Option Text} {calls : List GrouplistCall}
    (hcalls : ∀ call ∈ calls, call.Savable hasserver)
    (hsave : (GrouplistCall.runs calls (Grouplist.load hasserver filename file)).save = some text) :
    (Grouplist.load hasserver filename (some text)).serverInfo =
        (GrouplistCall.runs calls (Grouplist.load hasserver filename file)).serverInfo ∧
      (Grouplist.load hasserver filename (some text)).groups =
        (GrouplistCall.runs calls (Grouplist.load hasserver filename file)).groups ∧
      (Grouplist.load hasserver filename (some text)).availability =
        (GrouplistCall.runs calls (Grouplist.load hasserver filename file)).availability := by
  obtain ⟨hinfo, hgroups⟩ := @Grouplist.load_grouplistLines hasserver _ filename
    (Grouplist.runs_savable hcalls Grouplist.load_savable)
  rw [Grouplist.save_eq_some hsave]
  refine ⟨hinfo, hgroups, ?_⟩
  unfold Grouplist.availability Grouplist.Has Grouplist.At
  rw [hgroups]

def sampleCalls : List GrouplistCall :=
  [.setDate 1 "20020101".toList, .addgroup 1 "alt.a".toList, .addgroup 2 "alt.a".toList,
    .addgroupdesc 1 "alt.a".toList "\tA".toList, .addgroupdesc 2 "alt.a".toList "\tA".toList,
    .addgroupdesc 2 "alt.b".toList [], .flushserver 3]

def sampleText : Text :=
  "NGETGL1\n1\t20020101\n.\n1,2\talt.a\n1,2\t\tA\n.\n\talt.b\n2\t\n.\n".toList

theorem grouplist_load_save_sample : (Grouplist.load (fun _ => true) ['f'] (some sampleText)).groups =
    (GrouplistCall.runs sampleCalls (Grouplist.load (fun _ => true) ['f'] none)).groups := by
  refine (@grouplist_load_save (fun _ => true) ['f'] sampleText none sampleCalls ?_ (by decide)).2.1
  simp only [sampleCalls, List.forall_mem_cons, List.not_mem_nil, false_implies, implies_true, and_true]
  exact ⟨⟨rfl, by decide⟩, ⟨rfl, by decide⟩, ⟨rfl, by decide⟩, ⟨rfl, by decide, by decide⟩, ⟨rfl, by decide, by decide⟩,
    ⟨rfl, by decide, by decide⟩, trivial⟩

end Nget

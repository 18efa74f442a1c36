import Nget.Theorems.CacheCut
import Nget.Theorems.GrouplistEof
import Nget.Theorems.GrouplistSave

/-! A saved group list that is cut off behind the section of the servers (`GrouplistCut`). What the end of the text
    finds is whether the group that was read last has a configured server, which is not whether the text ends inside
    of a group's record. -/

namespace Nget
open CString NntpCache

/-- A start of a text ends before one of its characters or behind it. -/
theorem prefix_append_cons_iff {α : Type} {p a b : List α} {c : α} :
    p <+: a ++ c :: b ↔ p <+: a ∨ ∃ t, p = a ++ c :: t ∧ t <+: b := by
  constructor
  · intro h
    rcases List.prefix_or_prefix_of_prefix h (List.prefix_append a (c :: b)) with hp | ⟨t, rfl⟩
    · exact Or.inl hp
    · rcases List.prefix_cons_iff.mp ((List.prefix_append_right_inj a).mp h) with rfl | ⟨t, rfl, ht⟩
      · exact Or.inl (by rw [List.append_nil])
      · exact Or.inr ⟨t, rfl, ht⟩
  · rintro (h | ⟨t, rfl, h⟩)
    · exact h.trans (List.prefix_append a (c :: b))
    · exact (List.prefix_append_right_inj a).mpr (List.cons_prefix_cons.mpr ⟨rfl, h⟩)

theorem prefix_append_cons {α : Type} {a b : List α} {c : α} : a ++ [c] <+: a ++ c :: b :=
  prefix_append_cons_iff.mpr (Or.inr ⟨[], rfl, List.nil_prefix⟩)

theorem ne_append_cons {α : Type} {p a t : List α} {c : α} (h : p <+: a) : p ≠ a ++ c :: t := by
  rintro rfl
  have hlen := h.length_le
  rw [List.length_append, List.length_cons] at hlen
  omega

theorem Clean.of_start {p s : Text} (h : Clean s) (hp : p <+: s) : Clean p := fun c hc => h c (hp.subset hc)

theorem OneLine.of_start {p s : Text} (h : OneLine s) (hp : p <+: s) : OneLine p := fun c hc => h c (hp.subset hc)

namespace GroupAvailability

def headerLine (g : GroupAvailability) : Text := joinWith '\t' [Grouplist.serverids g.serverids, cstr g.groupname]

/-- The record of a group up to its dot. -/
def beforeDot (g : GroupAvailability) : Text :=
  putLines (g.headerLine :: g.servergroups.entries.map fun e => Grouplist.descriptionLine e.2)

def configured (hasserver : UInt64 → Bool) (g : GroupAvailability) : Bool :=
  g.serverids.toList.any hasserver || g.servergroups.entries.any fun e => e.2.serverids.toList.any hasserver

/-- The server is in the start of the group's record: in its header, or in a description up to the tab behind its
    servers. -/
def InStart (g : GroupAvailability) (q : Text) (s : UInt64) : Prop :=
  s ∈ g.serverids ∨ ∃ ds e ds', g.servergroups.entries = ds ++ e :: ds' ∧ s ∈ e.2.serverids ∧
    putLines (g.headerLine :: ds.map fun e => Grouplist.descriptionLine e.2) ++
      (Grouplist.serverids e.2.serverids ++ ['\t']) <+: q

end GroupAvailability

/-- Where a saved text is cut off behind its servers. -/
inductive GrouplistCut where
  /-- Behind so many records, the dot of the last section with its line feed or without it. -/
  | behind (done : List GroupAvailability) (newline : Bool)
  /-- In the servers of a group's header. -/
  | inServers (done : List GroupAvailability) (g : GroupAvailability) (q : Text)
  /-- In a group's record, from the tab of its header on. -/
  | inGroup (done : List GroupAvailability) (g : GroupAvailability) (q : Text)

namespace Grouplist

def savedGroups (gl : Grouplist) : List GroupAvailability := gl.groups.entries.map (·.2)

/-- The lines of the servers' section before its dot. -/
def serverLines (gl : Grouplist) : List Text := glcacheVersion :: gl.serverInfo.entries.map grouplistServerLine

/-- The text up to the dot behind the servers. -/
def serverSection (gl : Grouplist) : Text := putLines gl.serverLines ++ ['.']

/-- The text up to the end of these groups' records. -/
def textBehind (gl : Grouplist) (done : List GroupAvailability) : Text :=
  putLines (gl.serverLines ++ [['.']] ++ done.flatMap groupLines)

end Grouplist

namespace GrouplistCut
variable (gl : Grouplist) (hasserver : UInt64 → Bool)

def text : GrouplistCut → Text
  | behind done true => gl.textBehind done
  | behind done false => (gl.textBehind done).dropLast
  | inServers done _ q => gl.textBehind done ++ q
  | inGroup done _ q => gl.textBehind done ++ q

def Of : GrouplistCut → Prop
  | behind done _ => done <+: gl.savedGroups
  | inServers done g q => done ++ [g] <+: gl.savedGroups ∧ q ≠ [] ∧ q <+: Grouplist.serverids g.serverids
  | inGroup done g q => done ++ [g] <+: gl.savedGroups ∧ Grouplist.serverids g.serverids ++ ['\t'] <+: q ∧
      q <+: g.beforeDot

/-- The text ends behind the start of a header and before the dot. -/
def Inside : GrouplistCut → Prop
  | behind _ _ => False
  | inServers _ _ _ => True
  | inGroup _ _ _ => True

/-- The group that was read last before the end tells whether the text ends inside of a record: behind a record it has
    a configured server, in the servers of a header the one before has none, and in a record the text has none of
    it. -/
def Detected : GrouplistCut → Prop
  | behind done _ => ∀ g ∈ done.getLast?, g.configured hasserver = true
  | inServers done _ _ => ∃ g ∈ done.getLast?, g.configured hasserver = false
  | inGroup _ g q => ∀ s, g.InStart q s → hasserver s = false

end GrouplistCut

/-! ### One line -/

section
variable {hasserver hasserver' : UInt64 → Bool} {ids : SortedSet UInt64}

theorem joinWith_tab {a b : Text} : joinWith '\t' [a, b] = a ++ '\t' :: b := by simp [joinWith]

theorem anyServer_print {ids : List UInt64} : anyServer hasserver (ids.map printUlong) = ids.any hasserver := by
  unfold anyServer
  rw [List.any_map]
  exact congrArg (ids.any ·) (funext fun s => congrArg hasserver (atoul_print s))

theorem groupTurn_header {name : Text} {dropped : Bool} (hname : Clean name) :
    groupTurn hasserver (Grouplist.serverids ids ++ '\t' :: name) (.file dropped) = .group (ids.toList.any hasserver) := by
  have htoks : toks 2 (Grouplist.serverids ids ++ '\t' :: name) = some [Grouplist.serverids ids, name] := by
    rw [← joinWith_tab]
    exact toks_joinWith (by simp) rfl (clean_pair Grouplist.clean_serverids hname)
  have hlisted : headerListed hasserver [Grouplist.serverids ids, name] = ids.toList.any hasserver := by
    unfold headerListed
    rw [show ([Grouplist.serverids ids, name].getD 0 []) = Grouplist.serverids ids from rfl, Grouplist.takeWhile_serverids,
      anyServer_print]
  unfold groupTurn
  rw [htoks, ← hlisted]

/-- A header without its tab is not one. -/
theorem groupTurn_servers {p : Text} {dropped : Bool} (hp : p <+: Grouplist.serverids ids) :
    groupTurn hasserver p (.file dropped) = .file dropped := by
  have htokens : tokens p = [p] :=
    @tokens_joinWith [p] (by simp) fun t ht => List.mem_singleton.mp ht ▸ Grouplist.clean_serverids.of_start hp
  have htoks : toks 2 p = none := by
    unfold toks
    rw [htokens]
    exact if_neg (by simp)
  unfold groupTurn
  rw [htoks]

theorem toksTabs_tab {a b : Text} (ha : Clean a) (hb : OneLine b) : toksTabs (a ++ '\t' :: b) = some [a, b] := by
  have hline : '\n' ∉ joinWith '\t' [a, b] := by
    intro hm
    rcases mem_joinWith hm with h | ⟨t, ht, hnewline⟩
    · exact absurd h (by decide)
    · rcases List.mem_pair.mp ht with rfl | rfl
      · exact ha.newline hnewline
      · exact hb.newline hnewline
  have htoks := @btoks_tabs a b [] ha hb
  rw [btoks_firstLine, firstLine_append hline] at htoks
  obtain ⟨htwo, htoks⟩ := Prod.mk.inj htoks
  unfold toksTabs
  rw [← joinWith_tab, if_pos htwo, (Prod.mk.inj htoks).1]

theorem toksTabs_clean {p : Text} (hp : Clean p) : toksTabs p = none := by
  have hloop : ∀ p : Text, Clean p → (btoksLoop '\t' 2 false 1 p).1 = 1 := by
    intro p
    induction p with
    | nil => exact fun _ => rfl
    | cons c p ih =>
      intro hp
      have hc := hp c List.mem_cons_self
      unfold btoksLoop
      simpa [hc.1, hc.2.1, hc.2.2.1] using ih fun d hd => hp d (List.mem_cons_of_mem _ hd)
  unfold toksTabs btoks
  dsimp only
  rw [hloop p hp, if_neg (by decide)]

theorem groupTurn_description {s : UInt64} {desc : Text} {listed : Bool} (hs : s ∈ ids) (hdesc : OneLine desc) :
    groupTurn hasserver (Grouplist.serverids ids ++ '\t' :: desc) (.group listed) =
      .group (listed || ids.toList.any hasserver) := by
  have hdot : (Grouplist.serverids ids ++ '\t' :: desc).head? ≠ some '.' :=
    (GrouplistReader.head?_line (Grouplist.head?_serverids hs)).1
  have hlisted : descriptionListed hasserver [Grouplist.serverids ids, desc] = ids.toList.any hasserver := by
    unfold descriptionListed
    rw [show ([Grouplist.serverids ids, desc].getD 0 []) = Grouplist.serverids ids from rfl, Grouplist.split_serverids hs,
      anyServer_print]
  unfold groupTurn
  dsimp only
  rw [if_neg hdot, toksTabs_tab Grouplist.clean_serverids hdesc, ← hlisted]

/-- A description without the tab behind its servers is not one. -/
theorem groupTurn_describedServers {s : UInt64} {p : Text} {listed : Bool} (hs : s ∈ ids) (hp : p <+: Grouplist.serverids ids)
    (hne : p ≠ []) : groupTurn hasserver p (.group listed) = .group listed := by
  have hdot : p.head? ≠ some '.' := by
    rw [← head?_of_start hp hne]
    exact (Grouplist.head?_serverids hs).2
  unfold groupTurn
  dsimp only
  rw [if_neg hdot, toksTabs_clean (Grouplist.clean_serverids.of_start hp)]

/-! ### The lines of a record -/

variable {es : List (Text × ServerGroupDescription)} {g : GroupAvailability}

open GroupAvailability

theorem descriptionLine_eq {e : Text × ServerGroupDescription} (h : LineOf hasserver' e) :
    Grouplist.descriptionLine e.2 = Grouplist.serverids e.2.serverids ++ '\t' :: e.2.description := by
  rw [Grouplist.descriptionLine, joinWith_tab, h.1.cstr]

theorem newline_descriptionLine {e : Text × ServerGroupDescription} (h : LineOf hasserver' e) :
    '\n' ∉ Grouplist.descriptionLine e.2 := by
  rw [descriptionLine_eq h]
  intro hm
  rcases List.mem_append.mp hm with hm | hm
  · exact Grouplist.clean_serverids.newline hm
  · rcases List.mem_cons.mp hm with h' | hm
    · exact absurd h' (by decide)
    · exact h.1.newline hm

theorem groupRun_descriptions : ∀ (es : List (Text × ServerGroupDescription)) (listed : Bool), (∀ e ∈ es, LineOf hasserver' e) →
    groupRun hasserver (.group listed) (es.map fun e => Grouplist.descriptionLine e.2) =
      .group (listed || es.any fun e => e.2.serverids.toList.any hasserver)
  | [], listed, _ => congrArg GroupPos.group (Bool.or_false listed).symm
  | e :: es, listed, h => by
    have he := h e List.mem_cons_self
    obtain ⟨s, hs⟩ := he.2.1
    rw [List.map_cons, groupRun, descriptionLine_eq he, groupTurn_description hs he.1,
      groupRun_descriptions es _ fun e he => h e (List.mem_cons_of_mem _ he), List.any_cons, Bool.or_assoc]

/-- The record of a group that is saved, whatever comes before. -/
theorem groupRun_groupLines {dropped : Bool} (h : g.Read hasserver') :
    groupRun hasserver (.file dropped) (Grouplist.groupLines g) = .file !g.configured hasserver := by
  have hheader : joinWith '\t' [Grouplist.serverids g.serverids, cstr g.groupname] =
      Grouplist.serverids g.serverids ++ '\t' :: g.groupname := by
    rw [joinWith_tab, h.groupname.cstr]
  rw [Grouplist.groupLines, groupRun, hheader, groupTurn_header h.groupname, groupRun_append,
    groupRun_descriptions _ _ h.lineOf]
  rfl

theorem groupRun_done : ∀ (done : List GroupAvailability), (∀ g ∈ done, g.Read hasserver') →
    groupRun hasserver (.file false) (done.flatMap Grouplist.groupLines) =
      .file (done.getLast?.any fun g => !g.configured hasserver) := by
  intro done
  induction done using List.reverseRecOn with
  | nil => exact fun _ => rfl
  | append_singleton done g ih =>
    intro h
    rw [List.flatMap_append, groupRun_append, ih fun g hg => h g (List.mem_append_left _ hg), List.flatMap_singleton,
      groupRun_groupLines (h g (List.mem_append_right _ (List.mem_singleton_self g))), List.getLast?_concat]
    rfl

/-- A description with a configured server stands in the text, up to the tab behind its servers at least. -/
def DescribedIn (hasserver : UInt64 → Bool) (es : List (Text × ServerGroupDescription)) (q : Text) : Prop :=
  ∃ ds e ds', es = ds ++ e :: ds' ∧ e.2.serverids.toList.any hasserver = true ∧
    putLines (ds.map fun e => Grouplist.descriptionLine e.2) ++ (Grouplist.serverids e.2.serverids ++ ['\t']) <+: q

theorem describedIn_cons {e : Text × ServerGroupDescription} {q : Text} : DescribedIn hasserver (e :: es) q ↔
    e.2.serverids.toList.any hasserver = true ∧ Grouplist.serverids e.2.serverids ++ ['\t'] <+: q ∨
      ∃ q', q = Grouplist.descriptionLine e.2 ++ '\n' :: q' ∧ DescribedIn hasserver es q' := by
  constructor
  · rintro ⟨ds, e', ds', hes, hany, t, ht⟩
    cases ds with
    | nil =>
      obtain ⟨rfl, -⟩ := List.cons.inj hes
      exact Or.inl ⟨hany, t, ht⟩
    | cons d ds =>
      obtain ⟨rfl, rfl⟩ := List.cons.inj hes
      rw [List.map_cons, putLines_cons, List.append_assoc, List.cons_append] at ht
      exact Or.inr ⟨_, ht.symm, ds, e', ds', rfl, hany, t, rfl⟩
  · rintro (⟨hany, hq⟩ | ⟨q', rfl, ds, e', ds', rfl, hany, hq⟩)
    · exact ⟨[], e, es, rfl, hany, hq⟩
    · refine ⟨e :: ds, e', ds', rfl, hany, ?_⟩
      rw [List.map_cons, putLines_cons]
      exact (List.prefix_append_right_inj _).mpr (List.cons_prefix_cons.mpr ⟨rfl, hq⟩)

theorem groupRun_startLine {q line : Text} {pos : GroupPos} (hq : q <+: line) (hline : '\n' ∉ line) :
    groupRun hasserver pos (bufLines q) = if q = [] then pos else groupTurn hasserver q pos := by
  by_cases hne : q = []
  · rw [if_pos hne, hne]
    rfl
  · rw [if_neg hne, bufLines_singleton hne fun hm => hline (hq.subset hm)]
    rfl

/-- The descriptions in the start of a record: each counts when the tab behind its servers is there. -/
theorem groupRun_startDescriptions : ∀ (es : List (Text × ServerGroupDescription)) (listed : Bool) (q : Text),
    (∀ e ∈ es, LineOf hasserver' e) → q <+: putLines (es.map fun e => Grouplist.descriptionLine e.2) →
    ∃ listed', groupRun hasserver (.group listed) (bufLines q) = .group listed' ∧
      (listed' = true ↔ listed = true ∨ DescribedIn hasserver es q)
  | [], listed, q, _, hq => by
    rw [List.prefix_nil.mp hq]
    refine ⟨listed, rfl, (or_iff_left ?_).symm⟩
    rintro ⟨ds, e, ds', hes, -⟩
    cases ds <;> cases hes
  | e :: es, listed, q, h, hq => by
    have he := h e List.mem_cons_self
    obtain ⟨s, hs⟩ := he.2.1
    have hline := descriptionLine_eq he
    have hnewline := newline_descriptionLine he
    rw [List.map_cons, ← List.append_nil (putLines _), putLines_cons, List.append_nil, prefix_append_cons_iff] at hq
    rw [describedIn_cons]
    rcases hq with hq | ⟨q', rfl, hq'⟩
    · -- the text ends in the first line
      have hnot : ¬∃ q', q = Grouplist.descriptionLine e.2 ++ '\n' :: q' ∧ DescribedIn hasserver es q' :=
        fun ⟨q', heq, _⟩ => ne_append_cons hq heq
      rw [groupRun_startLine hq hnewline, or_iff_left hnot]
      rw [hline, prefix_append_cons_iff] at hq
      rcases hq with hq | ⟨d, rfl, hd⟩
      · have hnoTab : ¬(Grouplist.serverids e.2.serverids ++ ['\t'] <+: q) := by
          rintro ⟨d, rfl⟩
          exact ne_append_cons hq (List.append_assoc _ _ d)
        refine ⟨listed, ?_, (or_iff_left fun h => hnoTab h.2).symm⟩
        split
        · rfl
        · next hne => exact groupTurn_describedServers hs hq hne
      · rw [if_neg (by simp), groupTurn_description hs (he.1.of_start hd)]
        refine ⟨_, rfl, ?_⟩
        rw [Bool.or_eq_true]
        exact or_congr_right ⟨fun hany => ⟨hany, prefix_append_cons⟩, fun h => h.1⟩
    · have hstart : Grouplist.serverids e.2.serverids ++ ['\t'] <+: Grouplist.descriptionLine e.2 ++ '\n' :: q' := by
        rw [hline, List.append_assoc]
        exact prefix_append_cons
      obtain ⟨listed', hrun, hlisted⟩ := groupRun_startDescriptions es (listed || e.2.serverids.toList.any hasserver) q'
        (fun e he => h e (List.mem_cons_of_mem _ he)) hq'
      refine ⟨listed', ?_, hlisted.trans ?_⟩
      · rw [bufLines_append hnewline, groupRun, ← hrun, hline, groupTurn_description hs he.1]
      · rw [Bool.or_eq_true, or_assoc]
        refine or_congr_right (or_congr ⟨fun hany => ⟨hany, hstart⟩, fun h => h.1⟩ ⟨fun h => ⟨q', rfl, h⟩, ?_⟩)
        rintro ⟨q'', heq, h⟩
        obtain ⟨-, hcons⟩ := List.append_inj heq rfl
        exact (List.cons.inj hcons).2 ▸ h

theorem any_toList_iff {ids : SortedSet UInt64} : ids.toList.any hasserver = true ↔ ∃ s, s ∈ ids ∧ hasserver s = true := by
  simp only [List.any_eq_true, SortedSet.mem_toList]

/-- A configured server in the start of a record is in the header, or in a description behind it. -/
theorem inStart_iff {q : Text} : (∃ s, g.InStart q s ∧ hasserver s = true) ↔
    g.serverids.toList.any hasserver = true ∨
      ∃ q', q = g.headerLine ++ '\n' :: q' ∧ DescribedIn hasserver g.servergroups.entries q' := by
  constructor
  · rintro ⟨s, hs | ⟨ds, e, ds', hes, hs, t, ht⟩, hserver⟩
    · exact Or.inl (any_toList_iff.mpr ⟨s, hs, hserver⟩)
    · rw [putLines_cons, List.append_assoc, List.cons_append] at ht
      exact Or.inr ⟨_, ht.symm, ds, e, ds', hes, any_toList_iff.mpr ⟨s, hs, hserver⟩, t, rfl⟩
  · rintro (hany | ⟨q', rfl, ds, e, ds', hes, hany, hq⟩)
    · obtain ⟨s, hs, hserver⟩ := any_toList_iff.mp hany
      exact ⟨s, Or.inl hs, hserver⟩
    · obtain ⟨s, hs, hserver⟩ := any_toList_iff.mp hany
      refine ⟨s, Or.inr ⟨ds, e, ds', hes, hs, ?_⟩, hserver⟩
      rw [putLines_cons]
      exact (List.prefix_append_right_inj _).mpr (List.cons_prefix_cons.mpr ⟨rfl, hq⟩)

theorem beforeDot_eq : g.beforeDot =
    g.headerLine ++ '\n' :: putLines (g.servergroups.entries.map fun e => Grouplist.descriptionLine e.2) := by
  rw [beforeDot, ← List.append_nil (putLines _), putLines_cons, List.append_nil]

/-- The start of a record, from the tab of its header on. -/
theorem groupRun_startGroup {q : Text} {dropped : Bool} (h : g.Read hasserver')
    (htab : Grouplist.serverids g.serverids ++ ['\t'] <+: q) (hq : q <+: g.beforeDot) :
    ((groupRun hasserver (.file dropped) (bufLines q)).throws = true ↔ ∀ s, g.InStart q s → hasserver s = false) := by
  have hheader : g.headerLine = Grouplist.serverids g.serverids ++ '\t' :: g.groupname := by
    rw [GroupAvailability.headerLine, joinWith_tab, h.groupname.cstr]
  have hnewline : '\n' ∉ g.headerLine := by
    rw [GroupAvailability.headerLine, h.groupname.cstr]
    exact newline_joinWith (clean_pair Grouplist.clean_serverids h.groupname)
  have hlisted : ∃ listed, groupRun hasserver (.file dropped) (bufLines q) = .group listed ∧
      (listed = true ↔ ∃ s, g.InStart q s ∧ hasserver s = true) := by
    rw [inStart_iff]
    rw [beforeDot_eq, prefix_append_cons_iff] at hq
    rcases hq with hq | ⟨q', rfl, hq'⟩
    · have hnot : ¬∃ q', q = g.headerLine ++ '\n' :: q' ∧ DescribedIn hasserver g.servergroups.entries q' :=
        fun ⟨q', heq, _⟩ => ne_append_cons hq heq
      rw [or_iff_left hnot, groupRun_startLine hq hnewline]
      obtain ⟨name, rfl⟩ := htab
      rw [hheader, List.append_assoc, List.prefix_append_right_inj] at hq
      have hname : name <+: g.groupname := (List.cons_prefix_cons.mp hq).2
      rw [if_neg (by simp), List.append_assoc]
      exact ⟨_, groupTurn_header (h.groupname.of_start hname), Iff.rfl⟩
    · obtain ⟨listed, hrun, hiff⟩ := @groupRun_startDescriptions hasserver hasserver' g.servergroups.entries
        (g.serverids.toList.any hasserver) q' h.lineOf hq'
      refine ⟨listed, ?_, hiff.trans (or_congr_right ⟨fun h => ⟨q', rfl, h⟩, ?_⟩)⟩
      · rw [bufLines_append hnewline, groupRun, ← hrun, hheader, groupTurn_header h.groupname]
      · rintro ⟨q'', heq, h⟩
        obtain ⟨-, hcons⟩ := List.append_inj heq rfl
        exact (List.cons.inj hcons).2 ▸ h
  obtain ⟨listed, hrun, hiff⟩ := hlisted
  rw [hrun, GroupPos.throws, Bool.not_eq_true', ← Bool.not_eq_true, hiff]
  constructor
  · intro hnone s hs
    rw [← Bool.not_eq_true]
    exact fun hserver => hnone ⟨s, hs, hserver⟩
  · rintro hall ⟨s, hs, hserver⟩
    rw [hall s hs] at hserver
    cases hserver

end

/-! ### The text of a cut -/

namespace Grouplist
open GroupAvailability GrouplistReader
variable {hasserver hasserver' : UInt64 → Bool} {gl : Grouplist} {done : List GroupAvailability} {q : Text}

/-- The lines behind the first one, up to the end of these groups' records. -/
def linesBehind (gl : Grouplist) (done : List GroupAvailability) : List Text :=
  gl.serverInfo.entries.map grouplistServerLine ++ ['.'] :: done.flatMap groupLines

theorem textBehind_eq : gl.textBehind done = putLines (glcacheVersion :: gl.linesBehind done) := by
  unfold textBehind linesBehind serverLines
  rw [List.append_assoc]
  rfl

theorem textBehind_append {g : GroupAvailability} {t : Text} :
    gl.textBehind (done ++ [g]) ++ t = gl.textBehind done ++ (g.beforeDot ++ '.' :: '\n' :: t) := by
  have hlines : putLines (groupLines g) = g.beforeDot ++ ['.', '\n'] := by
    rw [groupLines, beforeDot, ← List.cons_append, putLines_append]
    rfl
  unfold textBehind
  rw [List.flatMap_append, List.flatMap_singleton, ← List.append_assoc, @putLines_append _ (groupLines g), hlines]
  simp only [List.append_assoc, List.cons_append, List.nil_append]

theorem savedGroups_read (h : gl.Linewise hasserver') : ∀ g ∈ gl.savedGroups, g.Read hasserver' := by
  intro g hg
  obtain ⟨e, he, rfl⟩ := List.mem_map.mp hg
  exact (h.groups e he).2.1

theorem newline_groupLines {g : GroupAvailability} (h : g.Read hasserver') : ∀ line ∈ groupLines g, '\n' ∉ line := by
  intro line hline
  rcases List.mem_cons.mp hline with rfl | hline
  · rw [h.groupname.cstr]
    exact newline_joinWith (clean_pair clean_serverids h.groupname)
  · rcases List.mem_append.mp hline with hline | hline
    · obtain ⟨e, he, rfl⟩ := List.mem_map.mp hline
      exact newline_descriptionLine (h.lineOf e he)
    · rw [List.mem_singleton.mp hline]
      decide

theorem serverLine (h : gl.Linewise hasserver') :
    ∀ line ∈ gl.serverInfo.entries.map grouplistServerLine, '\n' ∉ line ∧ line.head? ≠ some '.' := by
  intro line hline
  obtain ⟨e, he, rfl⟩ := List.mem_map.mp hline
  refine ⟨?_, (head?_fields (head?_printUlong e.1)).2⟩
  rw [grouplistServerLine, joinWith_tab, List.mem_append, List.mem_cons]
  rintro (hid | htab | hdate)
  · exact (clean_printUlong e.1).newline hid
  · cases htab
  · exact h.dates e he hdate

theorem newline_linesBehind (h : gl.Linewise hasserver') (hdone : done <+: gl.savedGroups) :
    ∀ line ∈ glcacheVersion :: gl.linesBehind done, '\n' ∉ line := by
  intro line hline
  rcases List.mem_cons.mp hline with rfl | hline
  · decide
  · rcases List.mem_append.mp hline with hline | hline
    · exact (serverLine h line hline).1
    · rcases List.mem_cons.mp hline with rfl | hline
      · decide
      · obtain ⟨g, hg, hline⟩ := List.mem_flatMap.mp hline
        exact newline_groupLines (savedGroups_read h g (hdone.subset hg)) line hline

theorem linesBehind_append : gl.linesBehind done = gl.linesBehind [] ++ done.flatMap groupLines := by
  simp [linesBehind]

theorem bufLines_textBehind (h : gl.Linewise hasserver') (hdone : done <+: gl.savedGroups) :
    bufLines (gl.textBehind done ++ q) =
      glcacheVersion :: (gl.linesBehind [] ++ (done.flatMap groupLines ++ bufLines q)) := by
  rw [textBehind_eq, bufLines_putLines_append (newline_linesBehind h hdone), linesBehind_append, List.cons_append,
    List.append_assoc]

/-- The last line is a dot, so it is the same one without its line feed. -/
theorem bufLines_dropLast (h : gl.Linewise hasserver') (hdone : done <+: gl.savedGroups) :
    bufLines (gl.textBehind done).dropLast = glcacheVersion :: (gl.linesBehind [] ++ done.flatMap groupLines) := by
  have hnewline := newline_linesBehind h hdone
  obtain ⟨lines, hlines⟩ : ∃ lines, glcacheVersion :: gl.linesBehind done = lines ++ [['.']] := by
    rcases List.eq_nil_or_concat done with rfl | ⟨done, g, rfl⟩
    · exact ⟨gl.serverLines, rfl⟩
    · refine ⟨gl.serverLines ++ [['.']] ++ done.flatMap groupLines ++ (g.headerLine :: g.servergroups.entries.map
        fun e => descriptionLine e.2), ?_⟩
      simp [linesBehind, serverLines, groupLines, GroupAvailability.headerLine]
  have htext : (putLines (lines ++ [['.']])).dropLast = putLines lines ++ ['.'] := by
    rw [putLines_append, List.dropLast_append_of_ne_nil (by simp [putLines])]
    rfl
  rw [← linesBehind_append, textBehind_eq, hlines, htext,
    bufLines_putLines_append fun l hl => hnewline l (hlines ▸ List.mem_append_left _ hl)]
  rfl

def RaisesEof (hasserver : UInt64 → Bool) (f : Text) : Prop := ∃ r : GrouplistReader, thrown hasserver f = some r.unexpectedEof

theorem raisesEof_iff {f : Text} {lines : List Text} (h : gl.Linewise hasserver')
    (hf : bufLines f = glcacheVersion :: (gl.linesBehind [] ++ lines)) :
    RaisesEof hasserver f ↔ (groupRun hasserver (.file false) lines).throws = true := by
  have hlines : glcacheVersion :: (gl.linesBehind [] ++ lines) =
      glcacheVersion :: (gl.serverInfo.entries.map grouplistServerLine ++ ['.'] :: lines) := by
    simp [linesBehind]
  obtain ⟨r, hthrown⟩ := @thrown_eof hasserver f _ lines (fun l hl => (serverLine h l hl).2) (hf.trans hlines)
  unfold RaisesEof
  rw [hthrown]
  split
  · next hthrows => exact ⟨fun _ => hthrows, fun _ => ⟨r, rfl⟩⟩
  · next hthrows =>
    constructor
    · rintro ⟨r', hr'⟩
      cases hr'
    · exact fun h => absurd h hthrows

/-- Every start of the text that has the servers' section is a cut of it. -/
theorem exists_cut : ∀ (groups done : List GroupAvailability) (p : Text), done ++ groups = gl.savedGroups →
    p <+: putLines (groups.flatMap groupLines) → ∃ cut : GrouplistCut, cut.Of gl ∧ cut.text gl = gl.textBehind done ++ p
  | [], done, p, hgroups, hp => by
    have hdone : done <+: gl.savedGroups := hgroups ▸ List.prefix_append done []
    rw [List.prefix_nil.mp hp, List.append_nil]
    exact ⟨.behind done true, hdone, rfl⟩
  | g :: groups, done, p, hgroups, hp => by
    have hdone : done <+: gl.savedGroups := hgroups ▸ List.prefix_append done _
    have hnext : done ++ [g] ++ groups = gl.savedGroups := by rw [← hgroups, List.append_assoc, List.singleton_append]
    have hdone' : done ++ [g] <+: gl.savedGroups := hnext ▸ List.prefix_append _ groups
    have hlines : putLines ((g :: groups).flatMap groupLines) =
        g.beforeDot ++ '.' :: '\n' :: putLines (groups.flatMap groupLines) := by
      rw [List.flatMap_cons, putLines_append, groupLines, ← List.cons_append, putLines_append]
      simp [GroupAvailability.beforeDot, GroupAvailability.headerLine, putLines]
    rw [hlines, prefix_append_cons_iff] at hp
    rcases hp with hp | ⟨t, rfl, ht⟩
    · by_cases hnil : p = []
      · rw [hnil, List.append_nil]
        exact ⟨.behind done true, hdone, rfl⟩
      · have hheader : g.beforeDot = serverids g.serverids ++ '\t' :: (cstr g.groupname ++ '\n' ::
            putLines (g.servergroups.entries.map fun e => descriptionLine e.2)) := by
          rw [beforeDot_eq, GroupAvailability.headerLine, joinWith_tab, List.append_assoc]
          rfl
        rcases prefix_append_cons_iff.mp (hheader ▸ hp) with hservers | ⟨t, rfl, -⟩
        · exact ⟨.inServers done g p, ⟨hdone', hnil, hservers⟩, rfl⟩
        · exact ⟨.inGroup done g _, ⟨hdone', prefix_append_cons, hp⟩, rfl⟩
    · rcases List.prefix_cons_iff.mp ht with rfl | ⟨p, rfl, hp⟩
      · refine ⟨.behind (done ++ [g]) false, hdone', ?_⟩
        have htext := @textBehind_append gl done g []
        rw [List.append_nil] at htext
        show (gl.textBehind (done ++ [g])).dropLast = _
        rw [htext, ← List.append_assoc]
        simp
      · obtain ⟨cut, hcut, htext⟩ := exists_cut groups (done ++ [g]) p hnext hp
        exact ⟨cut, hcut, htext.trans textBehind_append⟩

theorem raisesEof_text {cut : GrouplistCut} (h : gl.Linewise hasserver') (hcut : cut.Of gl) :
    (RaisesEof hasserver (cut.text gl) ↔ cut.Inside) ↔ cut.Detected hasserver := by
  have hread := savedGroups_read h
  have hrun : ∀ {done : List GroupAvailability}, done <+: gl.savedGroups →
      groupRun hasserver (.file false) (done.flatMap groupLines) =
        .file (done.getLast?.any fun g => !g.configured hasserver) := fun hdone =>
    groupRun_done _ fun g hg => hread g (hdone.subset hg)
  cases cut with
  | behind done newline =>
    have hlines : bufLines ((GrouplistCut.behind done newline).text gl) =
        glcacheVersion :: (gl.linesBehind [] ++ done.flatMap groupLines) := by
      cases newline with
      | true =>
        have hbuf := @bufLines_textBehind _ gl done [] h hcut
        rwa [List.append_nil, bufLines, List.append_nil] at hbuf
      | false => exact bufLines_dropLast h hcut
    have hdetected : (∀ g ∈ done.getLast?, g.configured hasserver = true) ↔
        ¬(done.getLast?.any fun g => !g.configured hasserver) = true := by
      cases done.getLast? <;> simp
    rw [raisesEof_iff h hlines, hrun hcut]
    exact (iff_of_eq (iff_false _)).trans hdetected.symm
  | inServers done g q =>
    obtain ⟨hgroup, hne, hq⟩ := hcut
    have hdone : done <+: gl.savedGroups := (List.prefix_append done [g]).trans hgroup
    have hdetected : (∃ g ∈ done.getLast?, g.configured hasserver = false) ↔
        (done.getLast?.any fun g => !g.configured hasserver) = true := by
      cases done.getLast? <;> simp
    show (RaisesEof hasserver (gl.textBehind done ++ q) ↔ True) ↔ _
    rw [raisesEof_iff h (bufLines_textBehind h hdone), groupRun_append, hrun hdone,
      groupRun_startLine hq clean_serverids.newline, if_neg hne,
      groupTurn_servers hq]
    exact (iff_of_eq (iff_true _)).trans hdetected.symm
  | inGroup done g q =>
    obtain ⟨hgroup, htab, hq⟩ := hcut
    have hdone : done <+: gl.savedGroups := (List.prefix_append done [g]).trans hgroup
    have hg : g ∈ gl.savedGroups := hgroup.subset (List.mem_append_right _ (List.mem_singleton_self g))
    show (RaisesEof hasserver (gl.textBehind done ++ q) ↔ True) ↔ _
    rw [raisesEof_iff h (bufLines_textBehind h hdone), groupRun_append, hrun hdone, groupRun_startGroup (hread g hg) htab hq]
    exact iff_of_eq (iff_true _)

theorem putLines_grouplistLines :
    putLines gl.grouplistLines = gl.serverSection ++ '\n' :: putLines (gl.savedGroups.flatMap groupLines) := by
  have hgroups : gl.savedGroups.flatMap groupLines = gl.groups.entries.flatMap fun e => groupLines e.2 := List.flatMap_map ..
  have hlines : gl.grouplistLines = gl.serverLines ++ ([['.']] ++ gl.groups.entries.flatMap fun e => groupLines e.2) := by
    simp [grouplistLines, serverLines]
  rw [hgroups, hlines, putLines_append, putLines_append, serverSection, List.append_assoc]
  rfl

end Grouplist

/-- A saved list is cut off somewhere behind the section of its servers, and read with any servers configured. That it
    raises the error of an unexpected end exactly when it ends inside of a group's record is what `Detected` says. -/
theorem grouplist_eof_iff {hasserver hasserver' : UInt64 → Bool} {filename text pre : Text} {file : Option Text}
    {calls : List GrouplistCall} (hcalls : ∀ call ∈ calls, call.Linewise hasserver')
    (hsave : (GrouplistCall.runs calls (Grouplist.load hasserver' filename file)).save = some text) (hpre : pre <+: text)
    (hsection : (GrouplistCall.runs calls (Grouplist.load hasserver' filename file)).serverSection <+: pre) :
    (∃ cut : GrouplistCut, cut.Of (GrouplistCall.runs calls (Grouplist.load hasserver' filename file)) ∧
      cut.text (GrouplistCall.runs calls (Grouplist.load hasserver' filename file)) = pre) ∧
    ∀ cut : GrouplistCut, cut.Of (GrouplistCall.runs calls (Grouplist.load hasserver' filename file)) →
      cut.text (GrouplistCall.runs calls (Grouplist.load hasserver' filename file)) = pre →
      ((Grouplist.RaisesEof hasserver pre ↔ cut.Inside) ↔ cut.Detected hasserver) := by
  have hlinewise := @Grouplist.runs_linewise hasserver' calls _ hcalls (@Grouplist.load_savable hasserver' filename file).linewise
  generalize GrouplistCall.runs calls (Grouplist.load hasserver' filename file) = gl at *
  constructor
  · obtain ⟨t, rfl⟩ := hsection
    rw [Grouplist.save_eq_some hsave, Grouplist.putLines_grouplistLines, List.prefix_append_right_inj] at hpre
    rcases List.prefix_cons_iff.mp hpre with rfl | ⟨p, rfl, hp⟩
    · refine ⟨.behind [] false, List.nil_prefix, ?_⟩
      show (gl.textBehind []).dropLast = _
      have htext : gl.textBehind [] = gl.serverSection ++ ['\n'] := by
        simp [Grouplist.textBehind, Grouplist.serverSection, putLines]
      rw [htext, List.dropLast_concat, List.append_nil]
    · obtain ⟨cut, hcut, htext⟩ := Grouplist.exists_cut gl.savedGroups [] p rfl hp
      refine ⟨cut, hcut, htext.trans ?_⟩
      simp [Grouplist.textBehind, Grouplist.serverSection, putLines]
  · intro cut hcut htext
    rw [← htext]
    exact Grouplist.raisesEof_text hlinewise hcut

/-- The start of the sample text up to the dot of its first group. -/
def sampleStart : Text := "NGETGL1\n1\t20020101\n.\n1,2\talt.a\n1,2\t\tA\n".toList

theorem grouplist_eof_sample :
    (∃ cut : GrouplistCut, cut.Of (GrouplistCall.runs sampleCalls (Grouplist.load (fun _ => true) ['f'] none)) ∧
      cut.text (GrouplistCall.runs sampleCalls (Grouplist.load (fun _ => true) ['f'] none)) = sampleStart) ∧
    ∀ cut : GrouplistCut, cut.Of (GrouplistCall.runs sampleCalls (Grouplist.load (fun _ => true) ['f'] none)) →
      cut.text (GrouplistCall.runs sampleCalls (Grouplist.load (fun _ => true) ['f'] none)) = sampleStart →
      ((Grouplist.RaisesEof (fun _ => false) sampleStart ↔ cut.Inside) ↔ cut.Detected fun _ => false) := by
  refine @grouplist_eof_iff (fun _ => false) (fun _ => true) ['f'] sampleText sampleStart none sampleCalls ?_ (by decide)
    (by decide) (by decide)
  simp only [sampleCalls, List.forall_mem_cons, List.not_mem_nil, false_implies, implies_true, and_true]
  have hdate : '\n' ∉ cstr "20020101".toList := by decide
  exact ⟨hdate, ⟨rfl, by decide⟩, ⟨rfl, by decide⟩, ⟨rfl, by decide, by decide⟩, ⟨rfl, by decide, by decide⟩,
    ⟨rfl, by decide, by decide⟩, trivial⟩

def sampleGroup : GroupAvailability :=
  GroupAvailability.describe "\tA".toList [1, 2] ⟨"alt.a".toList, ((∅ : SortedSet UInt64).insert 1).insert 2, ∅⟩

/-- A text that ends inside of a group with a configured server raises nothing, and the whole text raises the error when
    its last group has no configured server. -/
theorem grouplist_eof_missed :
    (GrouplistCall.runs sampleCalls (Grouplist.load (fun _ => true) ['f'] none)).save = some sampleText ∧
    (∃ cut : GrouplistCut, cut.Of (GrouplistCall.runs sampleCalls (Grouplist.load (fun _ => true) ['f'] none)) ∧
      cut.text (GrouplistCall.runs sampleCalls (Grouplist.load (fun _ => true) ['f'] none)) = sampleStart ∧ cut.Inside ∧
      ¬Grouplist.RaisesEof (fun _ => true) sampleStart) ∧
    ∃ cut : GrouplistCut, cut.Of (GrouplistCall.runs sampleCalls (Grouplist.load (fun _ => true) ['f'] none)) ∧
      cut.text (GrouplistCall.runs sampleCalls (Grouplist.load (fun _ => true) ['f'] none)) = sampleText ∧ ¬cut.Inside ∧
      Grouplist.RaisesEof (fun serverid => serverid == 1) sampleText := by
  have hnone : Grouplist.thrown (fun _ => true) sampleStart = none := by decide +kernel
  have hsome : Grouplist.thrown (fun serverid => serverid == 1) sampleText =
      some (GrouplistReader.unexpectedEof ⟨[], 9, 0, 0, 0⟩) := by decide +kernel
  refine ⟨by decide, ⟨.inGroup [] sampleGroup "1,2\talt.a\n1,2\t\tA\n".toList, ⟨?_, ?_, ?_⟩, ?_, trivial, ?_⟩,
    .behind (GrouplistCall.runs sampleCalls (Grouplist.load (fun _ => true) ['f'] none)).savedGroups true, ?_, ?_,
      fun h => h, _, hsome⟩
  · decide
  · decide
  · decide
  · decide
  · rintro ⟨r, hr⟩
    rw [hnone] at hr
    cases hr
  · exact List.prefix_rfl
  · decide

end Nget

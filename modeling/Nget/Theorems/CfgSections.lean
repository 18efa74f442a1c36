import Nget.CfgFile
import Nget.Lib.Nested
import Nget.Theorems.Lines

/-! The sections that are read of a file are those of its text: unbalanced braces are reported exactly when the
    lines do not nest, and if they do, every item is in the section that encloses its line. -/

namespace Nget
open CString Nested

/-! ### The text -/

/-- The lines of a file, as `load` takes them. -/
def cfgLines (f : Text) : List CfgLine := (bufLines f).map fun line => cfgLine (cstr (dropCr line))

/-- A line that opens a section or closes one. -/
def braces : CfgLine → Int
  | .sectionStart _ => 1
  | .sectionEnd => -1
  | _ => 0

/-- The item lines, each with the keys of the sections that are open there, the outermost first. -/
def itemsIn : List Text → List CfgLine → List (List Text × Text × Text)
  | _, [] => []
  | path, .sectionStart key :: ls => itemsIn (path ++ [key]) ls
  | path, .sectionEnd :: ls => itemsIn path.dropLast ls
  | path, .item key val :: ls => (path, key, val) :: itemsIn path ls
  | path, _ :: ls => itemsIn path ls

/-- The sections, each by the keys that lead to it. -/
def sectionsIn : List Text → List CfgLine → List (List Text)
  | _, [] => []
  | path, .sectionStart key :: ls => (path ++ [key]) :: sectionsIn (path ++ [key]) ls
  | path, .sectionEnd :: ls => sectionsIn path.dropLast ls
  | path, _ :: ls => sectionsIn path ls

/-- No section has two items of one key, or two sections of one key. -/
def UniqueKeys (ls : List CfgLine) : Prop :=
  ((itemsIn [] ls).map fun i => (i.1, i.2.1)).Nodup ∧ (sectionsIn [] ls).Nodup

/-- The section that the keys lead to. -/
def CfgSection.at (s : CfgSection) : List Text → Option CfgSection
  | [] => some s
  | key :: path => (s.getsection key).bind fun sub => sub.at path

/-! ### Nesting -/

/-- What a section holds, from its first line on. -/
inductive CfgDoc where
  | nil
  | item (key val : Text) (rest : CfgDoc)
  | sub (key : Text) (body rest : CfgDoc)

/-- Lines that nest, and what they hold. -/
inductive Nests : List CfgLine → CfgDoc → Prop where
  | nil : Nests [] .nil
  | skip {l : CfgLine} {ls : List CfgLine} {doc : CfgDoc} : (l = .empty ∨ l = .comment ∨ ∃ buf, l = .invalid buf) →
      Nests ls doc → Nests (l :: ls) doc
  | item {key val : Text} {ls : List CfgLine} {doc : CfgDoc} : Nests ls doc →
      Nests (.item key val :: ls) (.item key val doc)
  | sub {key : Text} {inner ls : List CfgLine} {body doc : CfgDoc} : Nests inner body → Nests ls doc →
      Nests (.sectionStart key :: (inner ++ .sectionEnd :: ls)) (.sub key body doc)

theorem Nests.wellNested {ls : List CfgLine} {doc : CfgDoc} (h : Nests ls doc) : WellNested braces ls := by
  induction h with
  | nil => exact wellNested_nil
  | @skip l ls doc hskip _ ih =>
    have hl : braces l = 0 := by rcases hskip with rfl | rfl | ⟨buf, rfl⟩ <;> rfl
    exact (wellNested_singleton hl).append ih
  | @item key val ls doc _ ih =>
    have hl : braces (.item key val) = 0 := rfl
    exact (wellNested_singleton hl).append ih
  | @sub key inner ls body doc _ _ ihbody ih =>
    have hopen : braces (.sectionStart key) = 1 := rfl
    have hclose : braces .sectionEnd = -1 := rfl
    have := (ihbody.enclosed hopen hclose).append ih
    simpa using this

/-- What a document adds to a section. -/
def CfgSection.add (s : CfgSection) : CfgDoc → CfgSection
  | .nil => s
  | .item key val rest => (s.setItem ⟨s.name, key, val⟩).add rest
  | .sub key body rest => (s.setSection ((mk s.name key [] []).add body)).add rest

/-! ### Loading -/

section
variable {file : Text} {f : Text}

theorem cfgLines_eq (hf : f ≠ []) : cfgLines f = cfgLine (bgetsp f).1 :: cfgLines (bgetsp f).2 := by
  unfold cfgLines
  rw [bufLines_eq hf, bgetsp_eq, List.map_cons]

/-- The report is of something else than braces. -/
def NoBraces (errs : List CfgError) : Prop := ∀ file level, .unbalanced file level ∉ errs

/-- How `load` ends: at the end of the section, or at the end of the file, where the section is complete, or
    another one is still open. -/
inductive LoadEnds (s : CfgSection) (f : Text) (level : Int) : CfgSection → Text → Int → Prop where
  | closed {inner : List CfgLine} {doc : CfgDoc} {f' : Text} : cfgLines f = inner ++ .sectionEnd :: cfgLines f' →
      Nests inner doc →
      f'.length < f.length → LoadEnds s f level (s.add doc) f' (level - 1)
  | complete {doc : CfgDoc} : Nests (cfgLines f) doc → LoadEnds s f level (s.add doc) [] level
  | unclosed {s' : CfgSection} {level' : Int} : level' = level + net braces (cfgLines f) → level < level' →
      LoadEnds s f level s' [] level'

namespace LoadEnds
variable {s s' sub : CfgSection} {f₁ f₂ f' : Text} {level level' level₁ : Int} {l : CfgLine}

theorem skip (hlines : cfgLines f = l :: cfgLines f₁) (hlen : f₁.length < f.length)
    (hskip : l = .empty ∨ l = .comment ∨ ∃ buf, l = .invalid buf) (h : LoadEnds s f₁ level s' f' level') :
    LoadEnds s f level s' f' level' := by
  cases h with
  | closed hrest hnests hlt => exact closed (by rw [hlines, hrest]; rfl) (.skip hskip hnests) (hlt.trans hlen)
  | complete hnests => exact complete (hlines ▸ .skip hskip hnests)
  | unclosed hnet hlt =>
    have hl : braces l = 0 := by rcases hskip with rfl | rfl | ⟨buf, rfl⟩ <;> rfl
    exact unclosed (by rw [hlines, net_cons, hl, zero_add]; exact hnet) hlt

theorem item {key val : Text} (hlines : cfgLines f = .item key val :: cfgLines f₁) (hlen : f₁.length < f.length)
    (h : LoadEnds (s.setItem ⟨s.name, key, val⟩) f₁ level s' f' level') : LoadEnds s f level s' f' level' := by
  cases h with
  | @closed _ doc _ hrest hnests hlt =>
    exact @closed s f level _ (.item key val doc) f' (by rw [hlines, hrest]; rfl) (.item hnests) (hlt.trans hlen)
  | @complete doc hnests => exact @complete s f level (.item key val doc) (hlines ▸ .item hnests)
  | unclosed hnet hlt => exact unclosed (by rw [hlines, net_cons]; exact hnet.trans (by simp [braces])) hlt

/-- A section that is closed, and what is behind it. -/
theorem sub_closed {key : Text} {inner : List CfgLine} {body : CfgDoc} (hlines : cfgLines f = .sectionStart key :: cfgLines f₁)
    (hlen : f₁.length < f.length) (hinner : cfgLines f₁ = inner ++ .sectionEnd :: cfgLines f₂) (hbody : Nests inner body)
    (hlen₂ : f₂.length < f₁.length)
    (h : LoadEnds (s.setSection ((CfgSection.mk s.name key [] []).add body)) f₂ level s' f' level') :
    LoadEnds s f level s' f' level' := by
  have hall : cfgLines f = .sectionStart key :: (inner ++ .sectionEnd :: cfgLines f₂) := by rw [hlines, hinner]
  cases h with
  | @closed _ doc _ hrest hnests hlt =>
    refine @closed s f level _ (.sub key body doc) f' ?_ (.sub hbody hnests) ((hlt.trans hlen₂).trans hlen)
    rw [hall, hrest]
    simp
  | @complete doc hnests => exact @complete s f level (.sub key body doc) (hall ▸ .sub hbody hnests)
  | unclosed hnet hlt =>
    refine unclosed (hnet.trans ?_) hlt
    rw [hall]
    simp only [net_cons, net_append, hbody.wellNested.settled, braces]
    omega

/-- A section that is still open at the end of the file. -/
theorem sub_open {key : Text} (hlines : cfgLines f = .sectionStart key :: cfgLines f₁)
    (hnet : level₁ = level + 1 + net braces (cfgLines f₁)) (hlt : level < level₁) : LoadEnds s f level s' [] level₁ := by
  refine unclosed ?_ hlt
  rw [hlines, net_cons, hnet]
  simp only [braces]
  omega

theorem length_le (h : LoadEnds s f level s' f' level') : f'.length ≤ f.length := by
  cases h with
  | closed _ _ hlt => exact hlt.le
  | complete _ => exact Nat.zero_le _
  | unclosed _ _ => exact Nat.zero_le _

theorem of_nil (h : LoadEnds s [] level s' f' level') : f' = [] ∧ level' = level := by
  generalize hnil : ([] : Text) = f at h
  cases h with
  | closed hrest _ _ =>
    rw [← hnil] at hrest
    exact absurd (congrArg List.length hrest) (by simp [cfgLines, bufLines])
  | complete _ => exact ⟨hnil, rfl⟩
  | unclosed hnet hlt =>
    rw [← hnil, show net braces (cfgLines []) = 0 from rfl] at hnet
    omega

end LoadEnds

theorem NoBraces.append {errs : List CfgError} {e : CfgError} (h : NoBraces errs)
    (he : ∀ file level, e ≠ .unbalanced file level) : NoBraces (errs ++ [e]) := fun file level hmem => by
  rcases List.mem_append.mp hmem with hmem | hmem
  · exact h file level hmem
  · exact he file level (List.mem_singleton.mp hmem).symm

/-- A duplicate that is reported if there is one. -/
theorem NoBraces.guarded {errs : List CfgError} {e : CfgError} (dup : Bool) (h : NoBraces errs)
    (he : ∀ file level, e ≠ .unbalanced file level) : NoBraces (if dup then errs ++ [e] else errs) := by
  split
  · exact h.append he
  · exact h

theorem load_ends : ∀ (rounds : Nat) (s : CfgSection) (f : Text) (level : Int) (errs : List CfgError), f.length < rounds →
    NoBraces errs → ∃ s' f' level' errs', CfgSection.load file rounds s f level errs = some (s', f', level', errs') ∧
      NoBraces errs' ∧ LoadEnds s f level s' f' level'
  | rounds + 1, s, f, level, errs, hrounds, herrs => by
    unfold CfgSection.load
    rcases eq_or_ne f [] with rfl | hf
    · exact ⟨s, [], level, errs, rfl, herrs, @LoadEnds.complete s [] level .nil .nil⟩
    · have hlines := cfgLines_eq hf
      have hlen := length_bgetsp hf
      rw [if_neg (by simpa using hf)]
      generalize bgetsp f = read at hlines hlen
      obtain ⟨line, f₁⟩ := read
      dsimp only at hlines hlen ⊢
      generalize cfgLine line = l at hlines
      have ih := fun s f₂ level errs (hle : f₂.length < f.length) => load_ends rounds s f₂ level errs (by omega)
      cases l with
      | empty =>
        obtain ⟨s', f', level', errs', hload, hnone, hends⟩ := ih s f₁ level errs hlen herrs
        exact ⟨s', f', level', errs', hload, hnone, hends.skip hlines hlen (Or.inl rfl)⟩
      | comment =>
        obtain ⟨s', f', level', errs', hload, hnone, hends⟩ := ih s f₁ level errs hlen herrs
        exact ⟨s', f', level', errs', hload, hnone, hends.skip hlines hlen (Or.inr (Or.inl rfl))⟩
      | invalid buf =>
        obtain ⟨s', f', level', errs', hload, hnone, hends⟩ :=
          ih s f₁ level (errs ++ [.invalidLine file buf]) hlen (herrs.append fun _ _ h => by cases h)
        exact ⟨s', f', level', errs', hload, hnone, hends.skip hlines hlen (Or.inr (Or.inr ⟨buf, rfl⟩))⟩
      | sectionEnd =>
        exact ⟨s, f₁, level - 1, errs, rfl, herrs, @LoadEnds.closed s f level [] .nil f₁ hlines .nil hlen⟩
      | item key val =>
        obtain ⟨s', f', level', errs', hload, hnone, hends⟩ :=
          ih (s.setItem ⟨s.name, key, val⟩) f₁ level _ hlen
            (herrs.guarded (e := .duplicateItem (s.name ++ '/' :: key)) (s.getitem key).isSome fun _ _ h => by cases h)
        exact ⟨s', f', level', errs', hload, hnone, hends.item hlines hlen⟩
      | sectionStart key =>
        obtain ⟨sub, f₂, level₁, errs₁, hsub, hnone₁, hends₁⟩ :=
          ih (CfgSection.mk s.name key [] []) f₁ (level + 1) errs hlen herrs
        dsimp only
        rw [hsub, Option.bind_eq_bind, Option.bind_some]
        dsimp only
        have hlen₂ : f₂.length < f.length := hends₁.length_le.trans_lt hlen
        obtain ⟨s', f', level', errs', hload, hnone, hends⟩ := ih (s.setSection sub) f₂ level₁ _ hlen₂
          (hnone₁.guarded (e := .duplicateSection sub.name) (s.getsection sub.key).isSome fun _ _ h => by cases h)
        refine ⟨s', f', level', errs', hload, hnone, ?_⟩
        cases hends₁ with
        | closed hinner hbody hlt =>
          rw [Int.add_sub_cancel] at hends
          exact hends.sub_closed hlines hlen hinner hbody hlt
        | complete hnests =>
          obtain ⟨rfl, rfl⟩ := hends.of_nil
          exact LoadEnds.sub_open hlines (by rw [hnests.wellNested.settled, add_zero]) (by omega)
        | unclosed hnet hlt =>
          obtain ⟨rfl, rfl⟩ := hends.of_nil
          exact LoadEnds.sub_open hlines hnet (by omega)

end
/-! ### What is found in the sections -/

theorem find?_assignList {ν : Type} {k j : Text} {v : ν} : ∀ {es : List (Text × ν)},
    (SortedMap.assignList k v es).find? (fun e => e.1 = j) = if k = j then some (k, v) else es.find? fun e => e.1 = j
  | [] => by
    by_cases hj : k = j
    · simp [SortedMap.assignList, hj]
    · simp [SortedMap.assignList, hj]
  | e :: es => by
    have ih := @find?_assignList ν k j v es
    unfold SortedMap.assignList
    split
    · next hlt =>
      rw [List.find?_cons, ih, List.find?_cons]
      by_cases hej : e.1 = j
      · have hkj : k ≠ j := fun hkj => hlt.ne (hej.trans hkj.symm)
        simp [hej, hkj]
      · simp [hej]
    · next hge =>
      split
      · rw [List.find?_cons]
        by_cases hj : k = j
        · simp [hj]
        · simp [hj]
      · next hle =>
        have hek : e.1 = k := le_antisymm (not_lt.mp hle) (not_lt.mp hge)
        rw [List.find?_cons, List.find?_cons, hek]
        by_cases hj : k = j
        · simp [hj]
        · simp [hj]

namespace CfgSection
variable {s sub : CfgSection} {i : CfgItem} {k key val : Text} {path : List Text} {doc : CfgDoc}

theorem getitem_setItem : (s.setItem i).getitem k = if i.key = k then some i else s.getitem k := by
  unfold getitem setItem items
  rw [find?_assignList]
  split
  · rfl
  · rfl

theorem getsection_setItem : (s.setItem i).getsection k = s.getsection k := rfl

theorem getitem_setSection : (s.setSection sub).getitem k = s.getitem k := rfl

theorem getsection_setSection : (s.setSection sub).getsection k = if sub.key = k then some sub else s.getsection k := by
  unfold getsection setSection sections
  rw [find?_assignList]
  split
  · rfl
  · rfl

theorem key_add : ∀ {doc : CfgDoc} {s : CfgSection}, (s.add doc).key = s.key
  | .nil, _ => rfl
  | .item key val rest, s => by rw [add, key_add]; rfl
  | .sub key body rest, s => by rw [add, key_add]; rfl

/-- The text of the item that the keys lead to. -/
def itemAt (s : CfgSection) (path : List Text) (key : Text) :
    Option Text := (s.at path).bind fun t => (t.getitem key).map (·.val)

end CfgSection

namespace CfgDoc

/-- The items of a document, each by the keys of the sections around it. -/
def itemsAt : CfgDoc → List (List Text × Text × Text)
  | nil => []
  | item key val rest => ([], key, val) :: rest.itemsAt
  | sub key body rest => body.itemsAt.map (fun i => (key :: i.1, i.2)) ++ rest.itemsAt

/-- The sections of a document. -/
def sectionsAt : CfgDoc → List (List Text)
  | nil => []
  | item _ _ rest => rest.sectionsAt
  | sub key body rest => [key] :: (body.sectionsAt.map (key :: ·) ++ rest.sectionsAt)

/-- Keys are unique in each section, also with what is there. -/
structure Unique (s : CfgSection) (doc : CfgDoc) : Prop where
  items : (doc.itemsAt.map fun i => (i.1, i.2.1)).Nodup
  sections : doc.sectionsAt.Nodup
  noItem : ∀ k v, ([], k, v) ∈ doc.itemsAt → s.getitem k = none
  noSection : ∀ k, [k] ∈ doc.sectionsAt → s.getsection k = none

end CfgDoc

theorem Nests.itemsIn {ls : List CfgLine} {doc : CfgDoc} (h : Nests ls doc) : ∀ (path : List Text) (more : List CfgLine),
    itemsIn path (ls ++ more) = doc.itemsAt.map (fun i => (path ++ i.1, i.2)) ++ itemsIn path more := by
  induction h with
  | nil => exact fun _ _ => rfl
  | @skip l ls doc hskip _ ih =>
    intro path more
    rcases hskip with rfl | rfl | ⟨buf, rfl⟩ <;> exact ih path more
  | @item key val ls doc _ ih =>
    intro path more
    simp [Nget.itemsIn, CfgDoc.itemsAt, ih]
  | @sub key inner ls body doc _ _ ihbody ih =>
    intro path more
    simp [Nget.itemsIn, CfgDoc.itemsAt, ih, ihbody]

theorem Nests.sectionsIn {ls : List CfgLine} {doc : CfgDoc} (h : Nests ls doc) : ∀ (path : List Text) (more : List CfgLine),
    sectionsIn path (ls ++ more) = doc.sectionsAt.map (path ++ ·) ++ sectionsIn path more := by
  induction h with
  | nil => exact fun _ _ => rfl
  | @skip l ls doc hskip _ ih =>
    intro path more
    rcases hskip with rfl | rfl | ⟨buf, rfl⟩ <;> exact ih path more
  | @item key val ls doc _ ih => exact ih
  | @sub key inner ls body doc _ _ ihbody ih =>
    intro path more
    simp [Nget.sectionsIn, CfgDoc.sectionsAt, ih, ihbody]

namespace CfgDoc.Unique
variable {s sub : CfgSection} {i : CfgItem} {key val : Text} {body rest : CfgDoc}

theorem item_rest (h : Unique s (.item key val rest)) (hi : i.key = key) : Unique (s.setItem i) rest := by
  have hitems := h.items
  rw [itemsAt, List.map_cons, List.nodup_cons] at hitems
  refine ⟨hitems.2, h.sections, fun k v hkv => ?_, fun k hk => h.noSection k hk⟩
  have hne : i.key ≠ k := fun heq =>
    hitems.1 (List.mem_map.mpr ⟨([], k, v), hkv, by rw [← heq, hi]⟩)
  rw [CfgSection.getitem_setItem, if_neg hne]
  exact h.noItem k v (List.mem_cons_of_mem _ hkv)

theorem sub_body (h : Unique s (.sub key body rest)) {loc : Text} : Unique (.mk loc key [] []) body := by
  have hitems := h.items
  have hsections := h.sections
  rw [itemsAt, List.map_append, List.map_map] at hitems
  rw [sectionsAt, List.nodup_cons] at hsections
  refine ⟨?_, (List.nodup_append.mp hsections.2).1.of_map _, fun _ _ _ => rfl, fun _ _ => rfl⟩
  have hbody := (List.nodup_append.mp hitems).1
  have hcomp : ((fun i : List Text × Text × Text => (i.1, i.2.1)) ∘ fun i : List Text × Text × Text => (key :: i.1, i.2)) =
      (fun i : List Text × Text => (key :: i.1, i.2)) ∘ fun i : List Text × Text × Text => (i.1, i.2.1) := rfl
  rw [hcomp, ← List.map_map] at hbody
  exact hbody.of_map _

theorem sub_rest (h : Unique s (.sub key body rest)) (hsub : sub.key = key) : Unique (s.setSection sub) rest := by
  have hitems := h.items
  have hsections := h.sections
  rw [itemsAt, List.map_append] at hitems
  rw [sectionsAt, List.nodup_cons] at hsections
  refine ⟨(List.nodup_append.mp hitems).2.1, (List.nodup_append.mp hsections.2).2.1, fun k v hkv => ?_, fun k hk => ?_⟩
  · exact h.noItem k v (List.mem_append_right _ hkv)
  · have hne : sub.key ≠ k := fun heq => hsections.1 (List.mem_append_right _ (by rw [← hsub, heq]; exact hk))
    rw [CfgSection.getsection_setSection, if_neg hne]
    exact h.noSection k (List.mem_cons_of_mem _ (List.mem_append_right _ hk))

end CfgDoc.Unique

namespace CfgSection

theorem itemAt_empty {loc j : Text} : (mk loc k [] []).itemAt path j = none := by
  cases path with
  | nil => rfl
  | cons key' path => rfl

/-- An item is found where it was, or where the document has it. -/
theorem itemAt_add : ∀ {doc : CfgDoc} {s : CfgSection} {path : List Text} {key val : Text}, doc.Unique s →
    ((s.add doc).itemAt path key = some val ↔ s.itemAt path key = some val ∨ (path, key, val) ∈ doc.itemsAt)
  | .nil, s, path, key, val, _ => by simp [add, CfgDoc.itemsAt]
  | .item k v rest, s, path, key, val, h => by
    rw [add, itemAt_add (h.item_rest rfl), CfgDoc.itemsAt, List.mem_cons]
    have hnone := h.noItem k v List.mem_cons_self
    cases path with
    | nil =>
      simp only [itemAt, CfgSection.at, Option.bind_some, getitem_setItem]
      by_cases hk : k = key
      · subst hk
        simp [hnone, eq_comm]
      · simp [hk, Ne.symm hk]
    | cons key' path => simp [itemAt, CfgSection.at, getsection_setItem]
  | .sub k body rest, s, path, key, val, h => by
    have hsub : ((mk s.name k [] []).add body).key = k := key_add
    rw [add, itemAt_add (h.sub_rest hsub), CfgDoc.itemsAt, List.mem_append, or_assoc.symm]
    refine or_congr_left ?_
    have hnone := h.noSection k List.mem_cons_self
    cases path with
    | nil => simp [itemAt, CfgSection.at, getitem_setSection]
    | cons key' path =>
      simp only [itemAt, CfgSection.at, getsection_setSection, hsub, List.mem_map]
      by_cases hk : k = key'
      · subst hk
        have ih := @itemAt_add body (mk s.name k [] []) path key val h.sub_body
        rw [itemAt_empty, itemAt] at ih
        rw [if_pos rfl, hnone]
        simpa using ih
      · rw [if_neg hk]
        simp [hk]

theorem at_empty {loc : Text} : ((mk loc k [] []).at path).isSome ↔ path = [] := by
  cases path with
  | nil => simp [CfgSection.at]
  | cons key' path => simp [CfgSection.at, getsection, sections]

/-- A section is found where it was, or where the document has it. -/
theorem at_add : ∀ {doc : CfgDoc} {s : CfgSection} {path : List Text}, doc.Unique s →
    (((s.add doc).at path).isSome ↔ (s.at path).isSome ∨ path ∈ doc.sectionsAt)
  | .nil, s, path, _ => by simp [add, CfgDoc.sectionsAt]
  | .item k v rest, s, path, h => by
    rw [add, at_add (h.item_rest rfl), CfgDoc.sectionsAt]
    cases path with
    | nil => simp [CfgSection.at]
    | cons key' path => simp [CfgSection.at, getsection_setItem]
  | .sub k body rest, s, path, h => by
    have hsub : ((mk s.name k [] []).add body).key = k := key_add
    have hnone := h.noSection k List.mem_cons_self
    rw [add, at_add (h.sub_rest hsub), CfgDoc.sectionsAt, ← List.cons_append, List.mem_append, or_assoc.symm]
    refine or_congr_left ?_
    cases path with
    | nil => simp [CfgSection.at]
    | cons key' path =>
      simp only [CfgSection.at, getsection_setSection, hsub, List.mem_cons, List.mem_map]
      by_cases hk : k = key'
      · subst hk
        have ih := @at_add body (mk s.name k [] []) path h.sub_body
        rw [at_empty] at ih
        rw [if_pos rfl, hnone]
        simpa using ih
      · rw [if_neg hk]
        simp [hk, Ne.symm hk]

end CfgSection

/-! ### The file -/

theorem CfgDoc.unique_of_nests {ls : List CfgLine} {doc : CfgDoc} {loc : Text} (h : Nests ls doc) (hkeys : UniqueKeys ls) :
    doc.Unique (.mk loc [] [] []) := by
  have hitems := h.itemsIn [] []
  have hsections := h.sectionsIn [] []
  rw [List.append_nil] at hitems hsections
  unfold UniqueKeys at hkeys
  rw [hitems, hsections] at hkeys
  have hid : doc.itemsAt.map (fun i => ([] ++ i.1, i.2)) = doc.itemsAt := List.map_id _
  have hid' : doc.sectionsAt.map ([] ++ ·) = doc.sectionsAt := List.map_id _
  rw [hid, hid', Nget.itemsIn, Nget.sectionsIn, List.append_nil, List.append_nil] at hkeys
  exact ⟨hkeys.1, hkeys.2, fun _ _ _ => rfl, fun _ _ => rfl⟩

/-- Loading the file ends, and reports unbalanced braces exactly when its lines do not nest. If they do, and keys
    are unique in each section, every item is in the section that encloses its line, and the sections are those
    of the text. -/
def LoadsNested (filename : Text) (rounds : Nat) (f : Text) : Prop :=
  ∃ s errs, CfgSection.ofFile filename rounds f = some (s, errs) ∧
    ((∃ level, .unbalanced filename level ∈ errs) ↔ ¬WellNested braces (cfgLines f)) ∧
    (WellNested braces (cfgLines f) → UniqueKeys (cfgLines f) →
      (∀ path key val, s.itemAt path key = some val ↔ (path, key, val) ∈ itemsIn [] (cfgLines f)) ∧
      ∀ path, (s.at path).isSome ↔ path = [] ∨ path ∈ sectionsIn [] (cfgLines f))

theorem cfgSection_loadsNested (filename : Text) {f : Text} {rounds : Nat} (hrounds : f.length < rounds) :
    LoadsNested filename rounds f := by
  obtain ⟨s, f', level, errs, hload, hnone, hends⟩ :=
    @load_ends filename rounds (.mk filename [] [] []) f 0 [] hrounds fun _ _ => List.not_mem_nil
  have hreport : (∃ l, .unbalanced filename l ∈ if level ≠ 0 then errs ++ [.unbalanced filename level] else errs) ↔
    level ≠ 0 := by
    split
    · next hlevel => exact iff_of_true ⟨level, by simp⟩ hlevel
    · next hlevel => exact iff_of_false (fun ⟨l, hl⟩ => hnone filename l hl) hlevel
  refine ⟨s, _, by rw [CfgSection.ofFile, hload]; rfl, hreport.trans ?_, ?_⟩
  · cases hends with
    | closed hrest hnests _ => exact iff_of_true (by decide) (hrest ▸ hnests.wellNested.not_close rfl)
    | complete hnests => exact iff_of_false (by decide) (not_not.mpr hnests.wellNested)
    | unclosed hnet hlt =>
      refine iff_of_true hlt.ne' fun hall => hlt.ne ?_
      rw [hnet, hall.settled, add_zero]
  · intro hall hkeys
    cases hends with
    | closed hrest hnests _ => exact absurd (hrest ▸ hall) (hnests.wellNested.not_close rfl)
    | @complete doc hnests =>
      have hunique := @CfgDoc.unique_of_nests _ _ filename hnests hkeys
      have hitems := hnests.itemsIn [] []
      have hsections := hnests.sectionsIn [] []
      have hid : doc.itemsAt.map (fun i => ([] ++ i.1, i.2)) = doc.itemsAt := List.map_id _
      have hid' : doc.sectionsAt.map ([] ++ ·) = doc.sectionsAt := List.map_id _
      rw [List.append_nil, hid, itemsIn, List.append_nil] at hitems
      rw [List.append_nil, hid', sectionsIn, List.append_nil] at hsections
      refine ⟨fun path key val => ?_, fun path => ?_⟩
      · rw [CfgSection.itemAt_add hunique, CfgSection.itemAt_empty, hitems]
        simp
      · rw [CfgSection.at_add hunique, CfgSection.at_empty, hsections]
    | unclosed hnet hlt =>
      rw [hall.settled, add_zero] at hnet
      exact absurd hnet.symm hlt.ne

theorem cfgSection_loadsNested_two : LoadsNested "rc".toList 40 "x=1\n\x7ba\n \x7bb\ny=2\n \x7d\n\x7d\nz=3".toList :=
  cfgSection_loadsNested "rc".toList (by decide)

end Nget

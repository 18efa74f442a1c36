import Nget.Theorems.MidKept

/-! Processes that share the file of a `c_mid_info`. A message-id that some process inserts and none removes gets into the
    file and stays there. One that is removed leaves the file, and the entry that says so is not written; a process that
    loaded the file before still has it as not removed, and brings it back when it saves. Where no process saves such an
    entry, no update is lost. -/

namespace Nget
open MidInfo

variable {P : Type}

/-- The operation in memory that an event is. -/
def MidEvent.op : MidEvent P → Option (P × MidOp)
  | .insert p mid now => some (p, .insert mid now)
  | .remove p mid => some (p, .remove mid)
  | _ => none

namespace MidShared
variable {s s' : MidShared P} {e : MidEvent P} {es : List (MidEvent P)} {p q : P} {m : MidInfo} {mid : Text} {op : MidOp}
  {file : Option Text}

/-! ### What a process has in memory -/

theorem op_eq (h : e.op = some (p, op)) :
    (∃ mid now, e = .insert p mid now ∧ op = .insert mid now) ∨ ∃ mid, e = .remove p mid ∧ op = .remove mid := by
  cases e with
  | insert q mid now =>
    cases h
    exact Or.inl ⟨mid, now, rfl, rfl⟩
  | remove q mid =>
    cases h
    exact Or.inr ⟨mid, rfl, rfl⟩
  | load q => cases h
  | save q => cases h

/-- Where an entry comes from: it was there, it is new, or it is dead now. -/
theorem entry_op {e' : MidEntry} (hop : e.op = some (p, op)) (he' : (m.apply op).entry mid = some e') :
    m.entry mid = some e' ∨ (∃ now, e = .insert p mid now ∧ (m.apply op).changed = true ∧ e' = ⟨now, timeTMax1⟩) ∨
      e = .remove p mid ∧ (m.apply op).changed = true ∧ e'.Dead := by
  rcases op_eq hop with ⟨x, now, rfl, rfl⟩ | ⟨x, rfl, rfl⟩
  · cases he : m.entry mid with
    | none =>
      rw [entry_apply_of_none he, MidOp.added] at he'
      split at he'
      · next hx =>
        subst hx
        have hchanged : (m.insert x now).changed = true := by
          rw [changed_insert, check_eq, he]
          exact Bool.or_true _
        exact Or.inr (Or.inl ⟨now, rfl, hchanged, (Option.some.inj he').symm⟩)
      · cases he'
    | some e₀ =>
      rw [entry_apply_of_some he] at he'
      exact Or.inl he'
  · cases he : m.entry mid with
    | none =>
      rw [entry_apply_of_none he] at he'
      cases he'
    | some e₀ =>
      rw [entry_apply_of_some he, MidOp.dateRemoved] at he'
      split at he'
      · next hx =>
        subst hx
        have hchanged : (m.remove mid).changed = true := by
          rw [changed_remove, check_eq, he]
          exact Bool.or_true _
        exact Or.inr (Or.inr ⟨rfl, hchanged, (congrArg MidEntry.dateRemoved (Option.some.inj he')).symm⟩)
      · exact Or.inl he'

/-- A process that has not loaded has done nothing in memory, and one that works has its entries by their message-ids. -/
structure Inv (es : List (MidEvent P)) (s : MidShared P) : Prop where
  start : ∀ p, s.procs p = .start → ∀ e ∈ es, ∀ op, e.op ≠ some (p, op)
  keyed : ∀ p m, s.procs p = .working m → Keyed m.states

/-- The message-ids that are inserted can be written. -/
def EventsOk (es : List (MidEvent P)) : Prop := ∀ e ∈ es, ∀ p op, e.op = some (p, op) → op.Ok

/-- A process that has not started yet has done nothing in memory. -/
theorem Inv.start_append (h : Inv es s) (hother : ∀ op, e.op ≠ some (q, op)) (hq : s.procs q = .start) :
    ∀ e' ∈ es ++ [e], ∀ op, e'.op ≠ some (q, op) := by
  intro e' he'
  rcases List.mem_append.mp he' with he' | he'
  · exact h.start q hq e' he'
  · exact List.mem_singleton.mp he' ▸ hother

theorem inv_init : Inv [] (init file : MidShared P) where
  start p _ e he := absurd he List.not_mem_nil
  keyed p m hp := by cases hp

/-- The file, or a process in memory, has the entry. -/
inductive Has (s : MidShared P) (mid : Text) (e : MidEntry) : Prop
  | file (h : (MidInfo.load s.file).entry mid = some e)
  | table {p : P} {m : MidInfo} (hp : s.procs p = .working m) (h : m.entry mid = some e)

theorem has_init {e' : MidEntry} (h : Has (init file : MidShared P) mid e') : (MidInfo.load file).entry mid = some e' := by
  cases h with
  | file h => exact h
  | table hp _ => cases hp

/-- A load finds the message-id in the file. -/
def InFile (s : MidShared P) (mid : Text) : Prop := (MidInfo.load s.file).check mid = true

/-- Some process inserts the message-id. -/
def Inserted (es : List (MidEvent P)) (mid : Text) : Prop := ∃ p now, .insert p mid now ∈ es

/-- Some process removes the message-id. -/
def Removed (es : List (MidEvent P)) (mid : Text) : Prop := ∃ p, .remove p mid ∈ es

/-- A message-id that is dead nowhere is in the file behind a `save`, where it was in the file or in memory. -/
theorem check_save (hi : Inv es s) (hp : s.procs p = .working m) (hlive : ∀ e', Has s mid e' → ¬e'.Dead)
    (hm : m.check mid = true → m.changed = true ∨ InFile s mid) (hor : m.check mid = true ∨ InFile s mid) :
    (MidInfo.load (m.save s.file).2).check mid = true := by
  rw [check_eq, entry_load_save (hi.keyed p m hp)]
  split
  · obtain ⟨e, he⟩ : ∃ e, Latest.merge MidEntry.rank (m.entry mid) ((load s.file).entry mid) = some e := by
      rw [← Option.isSome_iff_exists, Latest.isSome_merge, ← check_eq, ← check_eq, Bool.or_eq_true]
      exact hor
    have hnot : ¬e.Dead := (Latest.merge_eq_some he).elim (fun h => hlive e (.table hp h)) fun h => hlive e (.file h)
    rw [he, Option.filter_some, if_pos (decide_eq_true hnot)]
    rfl
  · next hdown =>
    rw [← check_eq]
    exact hor.elim (fun hc => (hm hc).resolve_left hdown) id

/-- A message-id that no process has removed: it is dead nowhere, and what had it, or was given it, has it or has brought it
    into the file. -/
structure Kept (file : Option Text) (mid : Text) (es : List (MidEvent P)) (s : MidShared P) : Prop where
  live : ∀ e, Has s mid e → ¬e.Dead
  initial : (MidInfo.load file).check mid = true → InFile s mid
  table : ∀ p m, s.procs p = .working m → m.check mid = true → m.changed = true ∨ InFile s mid
  inserted : ∀ p now, .insert p mid now ∈ es → InFile s mid ∨ ∃ m, s.procs p = .working m ∧ m.check mid = true

/-- The file has an entry of the message-id that is not dead. -/
def Live (file : Option Text) (mid : Text) : Prop := ∃ e, (MidInfo.load file).entry mid = some e ∧ ¬e.Dead

/-- A message-id that no process has inserted: what is not dead comes from the initial file, and a process that has removed
    it has it dead, or has taken it out of the file. -/
structure Gone (file : Option Text) (mid : Text) (es : List (MidEvent P)) (s : MidShared P) : Prop where
  date : ∀ e, Has s mid e → e.dateRemoved ≤ timeTDead
  source : ∀ e, Has s mid e → ¬e.Dead → Live file mid
  live : Live file mid → ∀ e, (MidInfo.load s.file).entry mid = some e → ¬e.Dead
  own : Live file mid → ∀ p m e, s.procs p = .working m → m.entry mid = some e → e.Dead → .remove p mid ∈ es
  absent : ∀ p m, s.procs p = .working m → m.check mid = false → ¬InFile s mid
  removed : ∀ p m e, s.procs p = .working m → .remove p mid ∈ es → m.entry mid = some e → e.Dead ∧ m.changed = true
  saved : ∀ p, .remove p mid ∈ es → (∃ m, s.procs p = .working m) ∨ ¬InFile s mid
  back : Live file mid → ¬InFile s mid → ∃ p, .remove p mid ∈ es ∧ .save p ∈ es

/-- The process does not bring back what a process that has saved removed. -/
def Fresh (es : List (MidEvent P)) (mid : Text) (m : MidInfo) : Prop :=
  m.changed = true → ∀ e, m.entry mid = some e → ¬e.Dead → ¬∃ p, .remove p mid ∈ es ∧ .save p ∈ es

theorem dead_of_remove {e' : MidEntry} (he' : (m.apply (.remove mid)).entry mid = some e') :
    e'.Dead ∧ (m.apply (.remove mid)).changed = true := by
  obtain ⟨e, he, rfl⟩ := Option.map_eq_some_iff.mp (entry_remove.symm.trans he')
  have hchanged : (m.remove mid).changed = true := by
    rw [changed_remove, check_eq, he]
    exact Bool.or_true _
  rw [if_pos rfl]
  exact ⟨rfl, hchanged⟩

/-- A `save` does not bring a message-id back into the file. -/
theorem Gone.not_back (h : Gone file mid es s) (hi : Inv es s) (hp : s.procs p = .working m) (hfresh : Fresh es mid m)
    (hnot : ¬InFile s mid) : ¬(MidInfo.load (m.save s.file).2).check mid = true := by
  have hnone : (MidInfo.load s.file).entry mid = none := entry_eq_none.mpr (by simpa [InFile] using hnot)
  rw [check_eq, entry_load_save (hi.keyed p m hp), hnone, Latest.merge_none]
  split
  · next hup =>
    intro hin
    obtain ⟨e, he⟩ := Option.isSome_iff_exists.mp hin
    obtain ⟨he, hlive⟩ := Option.filter_eq_some_iff.mp he
    have hlive := of_decide_eq_true hlive
    exact hfresh hup e he hlive (h.back (h.source e (.table hp he) hlive) hnot)
  · simp

/-- A process that removed the message-id takes it out of the file. -/
theorem Gone.taken (h : Gone file mid es s) (hi : Inv es s) (hp : s.procs p = .working m) (hfresh : Fresh es mid m)
    (hmem : .remove p mid ∈ es) : ¬(MidInfo.load (m.save s.file).2).check mid = true := by
  cases he : m.entry mid with
  | none => exact h.not_back hi hp hfresh (h.absent p m hp (entry_eq_none.mp he))
  | some e =>
    obtain ⟨hdead, hup⟩ := h.removed p m e hp hmem he
    -- What the file has is dead too, or gives way to the dead entry.
    obtain ⟨e', hmerge, hdead'⟩ : ∃ e', Latest.merge MidEntry.rank (some e) ((MidInfo.load s.file).entry mid) = some e' ∧
        e'.Dead := by
      cases hf : (MidInfo.load s.file).entry mid with
      | none => exact ⟨e, rfl, hdead⟩
      | some e₀ =>
        by_cases hdead₀ : e₀.Dead
        · rw [Latest.merge_some]
          split
          · exact ⟨e, rfl, hdead⟩
          · exact ⟨e₀, rfl, hdead₀⟩
        · have hlt : e₀.dateRemoved < timeTDead := Int64.lt_of_le_of_ne (h.date e₀ (.file hf)) hdead₀
          have hrank : e₀.rank < e.rank := MidEntry.rank_lt_iff.mpr ⟨hdead.trans_ne (by decide), Or.inr (hdead ▸ hlt)⟩
          exact ⟨e, by rw [Latest.merge_some, if_pos hrank], hdead⟩
    rw [check_eq, entry_load_save (hi.keyed p m hp), if_pos hup, he, hmerge, Option.filter_some,
      if_neg (by simpa using hdead')]
    simp

/-- A `save` leaves no dead entry where the file had none. -/
theorem Gone.live_save (h : Gone file mid es s) (hi : Inv es s) (hp : s.procs p = .working m) (hf : Live file mid)
    {e' : MidEntry} (he' : (MidInfo.load (m.save s.file).2).entry mid = some e') : ¬e'.Dead := by
  rw [entry_load_save (hi.keyed p m hp)] at he'
  split at he'
  · exact of_decide_eq_true (Option.filter_eq_some_iff.mp he').2
  · exact h.live hf e' he'

/-- Only a process that removed the message-id takes it out of the file. -/
theorem Gone.taken_by (h : Gone file mid es s) (hi : Inv es s) (hp : s.procs p = .working m) (hf : Live file mid)
    (hin : InFile s mid) (hnot : ¬(MidInfo.load (m.save s.file).2).check mid = true) : .remove p mid ∈ es := by
  rw [check_eq, entry_load_save (hi.keyed p m hp)] at hnot
  split at hnot
  · obtain ⟨e, he⟩ : ∃ e, Latest.merge MidEntry.rank (m.entry mid) ((MidInfo.load s.file).entry mid) = some e := by
      rw [← Option.isSome_iff_exists, Latest.isSome_merge, ← check_eq, ← check_eq, Bool.or_eq_true]
      exact Or.inr hin
    have hdead : e.Dead := by
      by_contra hlive
      rw [he, Option.filter_some, if_pos (decide_eq_true hlive)] at hnot
      exact hnot rfl
    rcases Latest.merge_eq_some he with he | he
    · exact h.own hf p m e hp he hdead
    · exact absurd hdead (h.live hf e he)
  · exact absurd (check_eq.symm.trans hin) hnot

theorem gone_init (hfile : ∀ e, (MidInfo.load file).entry mid = some e → e.dateRemoved ≤ timeTDead) :
    Gone file mid [] (init file : MidShared P) where
  date e he := hfile e (has_init he)
  source e he hlive := ⟨e, has_init he, hlive⟩
  live hf e he := by
    obtain ⟨e', he', hlive⟩ := hf
    cases he'.symm.trans he
    exact hlive
  own _ p m e hp := by cases hp
  absent p m hp := by cases hp
  removed p m e hp := by cases hp
  saved p hp := absurd hp List.not_mem_nil
  back hf hnot := by
    obtain ⟨e, he, -⟩ := hf
    exact absurd (check_eq.trans (congrArg Option.isSome he)) hnot

/-! ### One step -/

variable [DecidableEq P] {phase : MidPhase}

/-- A process is in another phase. -/
def put (s : MidShared P) (p : P) (phase : MidPhase) : MidShared P := { s with procs := Function.update s.procs p phase }

theorem put_self : (s.put p phase).procs p = phase := Function.update_self _ _ _

theorem put_of_ne (hne : q ≠ p) : (s.put p phase).procs q = s.procs q := Function.update_of_ne hne _ _

theorem put_cases {phase' : MidPhase} (h : (s.put p phase).procs q = phase') :
    q = p ∧ phase = phase' ∨ q ≠ p ∧ s.procs q = phase' := by
  by_cases hq : q = p
  · subst hq
    exact Or.inl ⟨rfl, put_self.symm.trans h⟩
  · exact Or.inr ⟨hq, (put_of_ne hq).symm.trans h⟩

/-- What a step can be: a load, an operation in memory, or a save. -/
inductive Change (s : MidShared P) : MidEvent P → MidShared P → Prop where
  | load {p : P} : s.procs p = .start → Change s (.load p) (s.put p (.working (MidInfo.load s.file)))
  | op {e : MidEvent P} {p : P} {op : MidOp} {m : MidInfo} : e.op = some (p, op) → s.procs p = .working m →
      Change s e (s.put p (.working (m.apply op)))
  | save {p : P} {m : MidInfo} : s.procs p = .working m → Change s (.save p) { s.put p .done with file := (m.save s.file).2 }

theorem change_of_step (h : s.step e = some s') : Change s e s' := by
  cases e with
  | load p =>
    rw [step] at h
    split at h
    · next hp =>
      cases h
      exact .load hp
    · cases h
  | insert p mid now =>
    have hop : MidEvent.op (.insert p mid now) = some (p, .insert mid now) := rfl
    rw [step] at h
    split at h
    · next hp =>
      cases h
      exact .op hop hp
    · cases h
  | remove p mid =>
    have hop : MidEvent.op (.remove p mid) = some (p, .remove mid) := rfl
    rw [step] at h
    split at h
    · next hp =>
      cases h
      exact .op hop hp
    · cases h
  | save p =>
    rw [step] at h
    split at h
    · next hp =>
      cases h
      exact .save hp
    · cases h

theorem run_append : ∀ {es : List (MidEvent P)} {s : MidShared P}, s.run (es ++ [e]) = (s.run es).bind (·.step e)
  | [], s => by
    change (s.step e).bind some = s.step e
    exact Option.bind_fun_some _
  | e' :: es, s => by
    have ih : ∀ t : MidShared P, t.run (es ++ [e]) = (t.run es).bind (·.step e) := fun t => run_append
    change (s.step e').bind _ = ((s.step e').bind _).bind _
    rw [Option.bind_assoc]
    exact congrArg _ (funext ih)

/-- What holds at the start and is kept by each step holds of each run. -/
theorem run_induction {Q : List (MidEvent P) → MidShared P → Prop} (hinit : Q [] (init file))
    (hstep : ∀ es s e s', (init file).run es = some s → Q es s → Change s e s' → Q (es ++ [e]) s')
    (hrun : (init file).run es = some s) : Q es s := by
  induction es using List.reverseRecOn generalizing s with
  | nil =>
    cases hrun
    exact hinit
  | append_singleton es e ih =>
    rw [run_append] at hrun
    obtain ⟨t, ht, hs⟩ := Option.bind_eq_some_iff.mp hrun
    exact hstep es t e s ht (ih ht) (change_of_step hs)

theorem Inv.change (h : Inv es s) (hc : Change s e s') (hok : ∀ p op, e.op = some (p, op) → op.Ok) : Inv (es ++ [e]) s' := by
  cases hc with
  | @load p hp =>
    refine ⟨fun q hq => ?_, fun q m hq => ?_⟩
    · rcases put_cases hq with ⟨-, hq⟩ | ⟨-, hq⟩
      · cases hq
      · exact h.start_append (fun op hop => by cases hop) hq
    · rcases put_cases hq with ⟨-, hq⟩ | ⟨-, hq⟩
      · cases hq
        exact keyed_load
      · exact h.keyed q m hq
  | @op _ p op m hop hp =>
    refine ⟨fun q hq => ?_, fun q m' hq => ?_⟩
    · rcases put_cases hq with ⟨-, hq⟩ | ⟨hne, hq⟩
      · cases hq
      · refine h.start_append (fun op' hop' => hne ?_) hq
        rw [hop] at hop'
        cases hop'
        rfl
    · rcases put_cases hq with ⟨rfl, hput⟩ | ⟨-, hq⟩
      · cases hput
        exact keyed_apply (h.keyed q m hp) (hok q op hop)
      · exact h.keyed q m' hq
  | @save p m hp =>
    refine ⟨fun q hq => ?_, fun q m' hq => ?_⟩
    · rcases put_cases hq with ⟨-, hq⟩ | ⟨-, hq⟩
      · cases hq
      · exact h.start_append (fun op hop => by cases hop) hq
    · rcases put_cases hq with ⟨-, hq⟩ | ⟨-, hq⟩
      · cases hq
      · exact h.keyed q m' hq

theorem inv_run (hok : EventsOk es) (hrun : (init file).run es = some s) : Inv es s := by
  have hinv : EventsOk es → Inv es s := by
    refine run_induction (Q := fun es s => EventsOk es → Inv es s) (fun _ => inv_init) ?_ hrun
    intro es s e s' _ ih hc hok
    exact (ih fun e' he' => hok e' (List.mem_append_left _ he')).change hc (hok e (by simp))
  exact hinv hok

/-- An entry that is there after a step was there before, is new, or is dead now. -/
theorem Has.change {e' : MidEntry} (hi : Inv es s) (hc : Change s e s') (h : Has s' mid e') :
    Has s mid e' ∨ (∃ p now, e = .insert p mid now ∧ e' = ⟨now, timeTMax1⟩) ∨ ∃ p, e = .remove p mid ∧ e'.Dead := by
  cases hc with
  | @load p hp =>
    cases h with
    | file h => exact Or.inl (.file h)
    | table hq h =>
      rcases put_cases hq with ⟨-, hq⟩ | ⟨-, hq⟩
      · cases hq
        exact Or.inl (.file h)
      · exact Or.inl (.table hq h)
  | @op _ p op m hop hp =>
    cases h with
    | file h => exact Or.inl (.file h)
    | table hq h =>
      rcases put_cases hq with ⟨-, hq⟩ | ⟨-, hq⟩
      · cases hq
        rcases entry_op hop h with he | ⟨now, hnew, -, heq⟩ | ⟨hremove, -, hdead⟩
        · exact Or.inl (.table hp he)
        · exact Or.inr (Or.inl ⟨p, now, hnew, heq⟩)
        · exact Or.inr (Or.inr ⟨p, hremove, hdead⟩)
      · exact Or.inl (.table hq h)
  | @save p m hp =>
    cases h with
    | file h =>
      change (MidInfo.load (m.save s.file).2).entry mid = some e' at h
      rw [entry_load_save (hi.keyed p m hp)] at h
      split at h
      · exact Or.inl ((Latest.merge_eq_some (Option.filter_eq_some_iff.mp h).1).elim (.table hp) .file)
      · exact Or.inl (.file h)
    | table hq h =>
      rcases put_cases hq with ⟨-, hq⟩ | ⟨-, hq⟩
      · cases hq
      · exact Or.inl (.table hq h)

/-! ### What nobody removes -/

theorem Kept.change (h : Kept file mid es s) (hi : Inv es s) (hc : Change s e s') (hr : ¬Removed (es ++ [e]) mid) :
    Kept file mid (es ++ [e]) s' := by
  have hlive : ∀ e', Has s' mid e' → ¬e'.Dead := fun e' he' => by
    rcases he'.change hi hc with he | ⟨p, now, -, rfl⟩ | ⟨p, rfl, -⟩
    · exact h.live e' he
    · exact (by decide : timeTMax1 ≠ timeTDead)
    · exact absurd ⟨p, by simp⟩ hr
  cases hc with
  | @load p hp =>
    refine ⟨hlive, h.initial, fun q m hq hm => ?_, fun q now hq => ?_⟩
    · rcases put_cases hq with ⟨-, hq⟩ | ⟨-, hq⟩
      · cases hq
        exact Or.inr hm
      · exact h.table q m hq hm
    · have hq' : .insert q mid now ∈ es := by simpa using hq
      refine (h.inserted q now hq').imp id fun ⟨m, hm, hcheck⟩ => ⟨m, (put_of_ne ?_).trans hm, hcheck⟩
      rintro rfl
      cases hp.symm.trans hm
  | @op _ p op m hop hp =>
    refine ⟨hlive, h.initial, fun q m' hq hm => ?_, fun q now hq => ?_⟩
    · rcases put_cases hq with ⟨-, hq⟩ | ⟨-, hq⟩
      · cases hq
        obtain ⟨e', he'⟩ := Option.isSome_iff_exists.mp (check_eq.symm.trans hm)
        rcases entry_op hop he' with he | ⟨now, -, hup, -⟩ | ⟨hremove, -⟩
        · exact (h.table p m hp (check_eq.trans (he ▸ rfl))).imp changed_apply id
        · exact Or.inl hup
        · exact absurd ⟨p, by simp [hremove]⟩ hr
      · exact h.table q m' hq hm
    · rcases List.mem_append.mp hq with hq | hq
      · refine (h.inserted q now hq).imp id fun ⟨m', hm, hcheck⟩ => ?_
        by_cases hqp : q = p
        · subst hqp
          cases hp.symm.trans hm
          exact ⟨m.apply op, put_self, check_apply hcheck⟩
        · exact ⟨m', (put_of_ne hqp).trans hm, hcheck⟩
      · rw [← List.mem_singleton.mp hq] at hop
        cases hop
        refine Or.inr ⟨m.apply (.insert mid now), put_self, check_eq.trans ?_⟩
        exact (congrArg Option.isSome entry_insert).trans (by rw [if_pos rfl]; rfl)
  | @save p m hp =>
    have hsave := check_save hi hp h.live (h.table p m hp)
    refine ⟨hlive, fun hf => hsave (Or.inr (h.initial hf)), fun q m' hq hm => ?_, fun q now hq => ?_⟩
    · rcases put_cases hq with ⟨-, hq⟩ | ⟨-, hq⟩
      · cases hq
      · exact (h.table q m' hq hm).imp id fun hf => hsave (Or.inr hf)
    · have hq' : .insert q mid now ∈ es := by simpa using hq
      rcases h.inserted q now hq' with hf | ⟨m', hm, hcheck⟩
      · exact Or.inl (hsave (Or.inr hf))
      · by_cases hqp : q = p
        · subst hqp
          cases hp.symm.trans hm
          exact Or.inl (hsave (Or.inl hcheck))
        · exact Or.inr ⟨m', (put_of_ne hqp).trans hm, hcheck⟩

theorem kept_run (hfile : ∀ e, (MidInfo.load file).entry mid = some e → ¬e.Dead) (hok : EventsOk es)
    (hrun : (init file).run es = some s) (hr : ¬Removed es mid) : Kept file mid es s := by
  have hkept : EventsOk es → ¬Removed es mid → Kept file mid es s := by
    refine run_induction (Q := fun es s => EventsOk es → ¬Removed es mid → Kept file mid es s) ?_ ?_ hrun
    · intro _ _
      exact ⟨fun e he => hfile e (has_init he), id, fun p m hp => (by cases hp), fun p now hp => absurd hp List.not_mem_nil⟩
    · intro es s e s' hrun ih hc hok hr
      have hok' : EventsOk es := fun e' he' => hok e' (List.mem_append_left _ he')
      have hr' : ¬Removed es mid := fun ⟨p, hp⟩ => hr ⟨p, List.mem_append_left _ hp⟩
      exact (ih hok' hr').change (inv_run hok' hrun) hc hr
  exact hkept hok hr

/-! ### What nobody inserts -/

/-- Without an insert nothing is there with a later date, and what is not dead was there before. -/
theorem Gone.has (h : Gone file mid es s) (hi : Inv es s) (hc : Change s e s') (hins : ∀ p now, e ≠ .insert p mid now) :
    (∀ e', Has s' mid e' → e'.dateRemoved ≤ timeTDead) ∧ ∀ e', Has s' mid e' → ¬e'.Dead → Live file mid := by
  refine ⟨fun e' he' => ?_, fun e' he' hlive => ?_⟩
  · rcases he'.change hi hc with he | ⟨p, now, hnew, -⟩ | ⟨-, -, hdead⟩
    · exact h.date e' he
    · exact absurd hnew (hins p now)
    · exact Int64.le_of_eq hdead
  · rcases he'.change hi hc with he | ⟨p, now, hnew, -⟩ | ⟨-, -, hdead⟩
    · exact h.source e' he hlive
    · exact absurd hnew (hins p now)
    · exact absurd hdead hlive

theorem Gone.load (h : Gone file mid es s) (hi : Inv es s) (hp : s.procs p = .start) :
    Gone file mid (es ++ [.load p]) (s.put p (.working (MidInfo.load s.file))) := by
  have hes : ∀ q, .remove q mid ∈ es ++ [MidEvent.load p] → .remove q mid ∈ es := fun q hq => by simpa using hq
  obtain ⟨hdate, hsource⟩ := h.has hi (.load hp) fun q now hnew => by cases hnew
  refine ⟨hdate, hsource, h.live, fun hf q m e hq he hdead => ?_, fun q m hq hm => ?_, fun q m e hq hmem he => ?_,
    fun q hmem => ?_, fun hf hnot => ?_⟩
  · rcases put_cases hq with ⟨-, hq⟩ | ⟨-, hq⟩
    · cases hq
      exact absurd hdead (h.live hf e he)
    · exact List.mem_append_left _ (h.own hf q m e hq he hdead)
  · rcases put_cases hq with ⟨-, hq⟩ | ⟨-, hq⟩
    · cases hq
      exact fun hin => absurd (hm.symm.trans hin) (by simp)
    · exact h.absent q m hq hm
  · rcases put_cases hq with ⟨rfl, -⟩ | ⟨-, hq⟩
    · exact absurd rfl (hi.start q hp _ (hes q hmem) _)
    · exact h.removed q m e hq (hes q hmem) he
  · refine (h.saved q (hes q hmem)).imp (fun ⟨m, hm⟩ => ?_) id
    by_cases hqp : q = p
    · subst hqp
      exact ⟨_, put_self⟩
    · exact ⟨m, (put_of_ne hqp).trans hm⟩
  · obtain ⟨q, hq, hsave⟩ := h.back hf hnot
    exact ⟨q, List.mem_append_left _ hq, List.mem_append_left _ hsave⟩

theorem Gone.apply (h : Gone file mid es s) (hi : Inv es s) (hop : e.op = some (p, op)) (hp : s.procs p = .working m)
    (hins : ∀ q now, e ≠ .insert q mid now) : Gone file mid (es ++ [e]) (s.put p (.working (m.apply op))) := by
  have hother : ∀ q, .remove q mid ∈ es ++ [e] → .remove q mid ∈ es ∨ q = p ∧ op = .remove mid := by
    intro q hq
    refine (List.mem_append.mp hq).imp id fun hq => ?_
    rw [← List.mem_singleton.mp hq] at hop
    cases hop
    exact ⟨rfl, rfl⟩
  obtain ⟨hdate, hsource⟩ := h.has hi (.op hop hp) hins
  refine ⟨hdate, hsource, h.live, fun hf q m' e' hq he' hdead => ?_, fun q m' hq hm => ?_, fun q m' e' hq hmem he' => ?_,
    fun q hmem => ?_, fun hf hnot => ?_⟩
  · rcases put_cases hq with ⟨rfl, hput⟩ | ⟨-, hq⟩
    · cases hput
      rcases entry_op hop he' with he | ⟨now, hnew, -⟩ | ⟨hremove, -⟩
      · exact List.mem_append_left _ (h.own hf q m e' hp he hdead)
      · exact absurd hnew (hins q now)
      · exact List.mem_append_right _ (List.mem_singleton.mpr hremove.symm)
    · exact List.mem_append_left _ (h.own hf q m' e' hq he' hdead)
  · rcases put_cases hq with ⟨-, hq⟩ | ⟨-, hq⟩
    · cases hq
      refine h.absent p m hp ?_
      by_contra hcheck
      exact absurd (hm.symm.trans (check_apply (by simpa using hcheck))) (by simp)
    · exact h.absent q m' hq hm
  · rcases put_cases hq with ⟨rfl, hput⟩ | ⟨hne, hq⟩
    · cases hput
      rcases hother q hmem with hmem | ⟨-, rfl⟩
      · rcases entry_op hop he' with he | ⟨now, hnew, -⟩ | ⟨-, hup, hdead⟩
        · exact (h.removed q m e' hp hmem he).imp id changed_apply
        · exact absurd hnew (hins q now)
        · exact ⟨hdead, hup⟩
      · exact dead_of_remove he'
    · exact h.removed q m' e' hq ((hother q hmem).resolve_right fun h => hne h.1) he'
  · by_cases hqp : q = p
    · subst hqp
      exact Or.inl ⟨_, put_self⟩
    · refine (h.saved q ((hother q hmem).resolve_right fun h => hqp h.1)).imp (fun ⟨m', hm⟩ => ?_) id
      exact ⟨m', (put_of_ne hqp).trans hm⟩
  · obtain ⟨q, hq, hsave⟩ := h.back hf hnot
    exact ⟨q, List.mem_append_left _ hq, List.mem_append_left _ hsave⟩

theorem Gone.save (h : Gone file mid es s) (hi : Inv es s) (hp : s.procs p = .working m) (hfresh : Fresh es mid m) :
    Gone file mid (es ++ [.save p]) { s.put p .done with file := (m.save s.file).2 } := by
  have hes : ∀ q, .remove q mid ∈ es ++ [MidEvent.save p] → .remove q mid ∈ es := fun q hq => by simpa using hq
  have hback := h.not_back hi hp hfresh
  obtain ⟨hdate, hsource⟩ := h.has hi (.save hp) fun q now hnew => by cases hnew
  refine ⟨hdate, hsource, fun hf e he => h.live_save hi hp hf he, fun hf q m' e hq he hdead => ?_, fun q m' hq hm => ?_,
    fun q m' e hq hmem he => ?_, fun q hmem => ?_, fun hf hnot => ?_⟩
  · rcases put_cases hq with ⟨-, hq⟩ | ⟨-, hq⟩
    · cases hq
    · exact List.mem_append_left _ (h.own hf q m' e hq he hdead)
  · rcases put_cases hq with ⟨-, hq⟩ | ⟨-, hq⟩
    · cases hq
    · exact hback (h.absent q m' hq hm)
  · rcases put_cases hq with ⟨-, hq⟩ | ⟨-, hq⟩
    · cases hq
    · exact h.removed q m' e hq (hes q hmem) he
  · by_cases hqp : q = p
    · subst hqp
      exact Or.inr (h.taken hi hp hfresh (hes q hmem))
    · exact (h.saved q (hes q hmem)).imp (fun ⟨m', hm⟩ => ⟨m', (put_of_ne hqp).trans hm⟩) hback
  · by_cases hin : InFile s mid
    · exact ⟨p, List.mem_append_left _ (h.taken_by hi hp hf hin hnot), by simp⟩
    · obtain ⟨q, hq, hsave⟩ := h.back hf hin
      exact ⟨q, List.mem_append_left _ hq, List.mem_append_left _ hsave⟩

/-- No process saves an entry of a message-id that nobody inserts, where a process that has saved removed it. -/
def SavesFresh (file : Option Text) (es : List (MidEvent P)) (mid : Text) : Prop :=
  ∀ pre p post s m, es = pre ++ .save p :: post → (init file).run pre = some s → s.procs p = .working m →
    ¬Inserted es mid → Fresh pre mid m

theorem gone_run (hfile : ∀ e, (MidInfo.load file).entry mid = some e → e.dateRemoved ≤ timeTDead) (hok : EventsOk es)
    (hrun : (init file).run es = some s) (hins : ¬Inserted es mid) (hfresh : SavesFresh file es mid) :
    Gone file mid es s := by
  have hgone : es <+: es → Gone file mid es s := by
    refine run_induction (Q := fun es' s => es' <+: es → Gone file mid es' s) (fun _ => gone_init hfile) ?_ hrun
    intro es' s e s' hrun ih hc hpre
    have hpre' : es' <+: es := (List.prefix_append es' [e]).trans hpre
    have hi : Inv es' s := inv_run (fun e' he' => hok e' (hpre'.subset he')) hrun
    cases hc with
    | load hp => exact (ih hpre').load hi hp
    | @op _ p op m hop hp =>
      refine (ih hpre').apply hi hop hp fun q now heq => hins ⟨q, now, hpre.subset ?_⟩
      exact List.mem_append_right _ (List.mem_singleton.mpr heq.symm)
    | @save p m hp =>
      obtain ⟨post, hpost⟩ := hpre
      refine (ih hpre').save hi hp (hfresh es' p post s m ?_ hrun hp hins)
      rw [← hpost, List.append_assoc]
      rfl
  exact hgone List.prefix_rfl

/-! ### All have saved -/

/-- In the initial file no message-id that nobody removes has the removal date of a dead entry, and none that some process
    removes and nobody inserts has a later one. -/
structure Dated (file : Option Text) (es : List (MidEvent P)) : Prop where
  kept : ∀ mid e, (MidInfo.load file).entry mid = some e → ¬Removed es mid → ¬e.Dead
  gone : ∀ mid e, (MidInfo.load file).entry mid = some e → Removed es mid → ¬Inserted es mid → e.dateRemoved ≤ timeTDead

/-- Once all have saved, the file has what was there or inserted and nobody removed, and nothing that was removed and
    nobody inserted. -/
theorem no_lost_update (hfile : Dated file es) (hok : EventsOk es) (hfresh : ∀ mid, SavesFresh file es mid)
    (hrun : (init file).run es = some s) (hsaved : ∀ p m, s.procs p ≠ .working m) (mid : Text) :
    ((MidInfo.load file).check mid = true ∨ Inserted es mid → ¬Removed es mid → InFile s mid) ∧
      (Removed es mid → ¬Inserted es mid → ¬InFile s mid) := by
  constructor
  · intro hor hr
    have hkept := kept_run (fun e he => hfile.kept mid e he hr) hok hrun hr
    rcases hor with hf | ⟨p, now, hp⟩
    · exact hkept.initial hf
    · refine (hkept.inserted p now hp).resolve_right fun ⟨m, hm, _⟩ => ?_
      exact hsaved p m hm
  · intro ⟨p, hp⟩ hins
    have hgone := gone_run (fun e he => hfile.gone mid e he ⟨p, hp⟩ hins) hok hrun hins (hfresh mid)
    exact (hgone.saved p hp).resolve_left fun ⟨m, hm⟩ => hsaved p m hm

/-- Two processes load the file, one inserts a message-id and saves, and the other one removes another and saves. -/
def twoSaves : List (MidEvent Bool) :=
  [.load false, .load true, .insert false "<b>".toList 2000, .save false, .remove true "<a>".toList, .save true]

theorem no_lost_update_sample :
    ∃ s, (init (some "<a> 1000 2147483646\n".toList)).run twoSaves = some s ∧ InFile s "<b>".toList ∧
      ¬InFile s "<a>".toList := by
  have hend : ((init (some "<a> 1000 2147483646\n".toList)).run twoSaves).map (fun s => (s.procs false, s.procs true)) =
      some (.done, .done) := by decide +kernel
  obtain ⟨s, hrun, hs⟩ := Option.map_eq_some_iff.mp hend
  obtain ⟨hfalse, htrue⟩ := Prod.mk.inj hs
  have hstates : (MidInfo.load (some "<a> 1000 2147483646\n".toList)).states = [⟨"<a>".toList, 1000, timeTMax1⟩] := by
    decide +kernel
  have hdate : ∀ mid e, (MidInfo.load (some "<a> 1000 2147483646\n".toList)).entry mid = some e →
      e.dateRemoved < timeTDead := by
    intro mid e he
    rw [MidInfo.entry, hstates, entryOf_cons] at he
    split at he
    · cases he
      decide
    · cases he
  have hall := @no_lost_update Bool s twoSaves _ _ ⟨fun mid e he _ => Int64.ne_of_lt (hdate mid e he), fun mid e he _ _ =>
    Int64.le_of_lt (hdate mid e he)⟩ (fun e he p op hop => ?_)
    (fun mid pre p post t m hes _ _ _ _ e _ _ => ?_) hrun (fun p m => ?_)
  · refine ⟨s, hrun, (hall "<b>".toList).1 (Or.inr ⟨false, 2000, by decide⟩) ?_, (hall "<a>".toList).2 ⟨true, by decide⟩ ?_⟩
    · rintro ⟨p, hp⟩
      simp [twoSaves] at hp
    · rintro ⟨p, now, hp⟩
      simp [twoSaves] at hp
  · simp only [twoSaves, List.mem_cons, List.not_mem_nil, or_false] at he
    rcases he with rfl | rfl | rfl | rfl | rfl | rfl <;> cases hop
    · exact ⟨by decide, by decide, by decide, by decide⟩
    · trivial
  · rintro ⟨q, hq, hsave⟩
    -- The process that removes is the last one to save.
    have htake : pre = twoSaves.take pre.length := by rw [hes, List.take_left]
    have hlen : pre.length < 6 := by
      have hlength := congrArg List.length hes
      simp only [List.length_append, List.length_cons] at hlength
      change 6 = _ at hlength
      omega
    have hnot : ∀ n < 6, MidEvent.save true ∉ twoSaves.take n := by decide
    have hqtrue : q = true := by
      have hq' : .remove q mid ∈ twoSaves := hes ▸ List.mem_append_left _ hq
      simp [twoSaves] at hq'
      exact hq'.1
    exact hnot _ hlen (htake ▸ hqtrue ▸ hsave)
  · cases p <;> simp [hfalse, htrue]

/-- One process removes the message-id of the file and saves, and the other one saves what it loaded before. -/
theorem removal_lost : ¬∀ (file : Option Text) (es : List (MidEvent Bool)) (s : MidShared Bool), EventsOk es →
    (init file).run es = some s → (∀ p m, s.procs p ≠ .working m) → ∀ mid,
      ((MidInfo.load file).check mid = true ∨ Inserted es mid → ¬Removed es mid → InFile s mid) ∧
        (Removed es mid → ¬Inserted es mid → ¬InFile s mid) := by
  intro h
  let es : List (MidEvent Bool) := [.load false, .load true, .remove false "<a>".toList, .save false,
    .insert true "<b>".toList 2000, .save true]
  let file : Option Text := some "<a> 1000 2147483646\n".toList
  have hend : ((init file).run es).map (fun s => ((MidInfo.load s.file).check "<a>".toList, s.procs false, s.procs true)) =
      some (true, .done, .done) := by decide +kernel
  obtain ⟨s, hrun, hs⟩ := Option.map_eq_some_iff.mp hend
  simp only [Prod.mk.injEq] at hs
  obtain ⟨hin, hfalse, htrue⟩ := hs
  refine (h file es s ?_ hrun ?_ "<a>".toList).2 ⟨false, by simp [es]⟩ ?_ hin
  · intro e he p op hop
    simp only [es, List.mem_cons, List.not_mem_nil, or_false] at he
    rcases he with rfl | rfl | rfl | rfl | rfl | rfl <;> cases hop
    · trivial
    · exact ⟨by decide, by decide, by decide, by decide⟩
  · intro p m
    cases p <;> simp [hfalse, htrue]
  · rintro ⟨p, now, hmem⟩
    simp [es] at hmem

end MidShared
end Nget

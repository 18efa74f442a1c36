import Nget.Theorems.MidKept

/-! Whether the last operation on a message-id decides what `check` says. An entry that is dead stays in the table up to
    the `save`: `check` still finds it, and `insert` leaves it dead. Where no `remove` finds its message-id in the table and
    no `insert` finds a dead entry, the last operation wins, before the `save` and behind it. -/

namespace Nget
namespace MidInfo
variable {m : MidInfo} {mid : Text} {op : MidOp} {ops : List MidOp} {file : Option Text}

/-- What one process has in memory and in the file. -/
inductive Session : MidInfo → Option Text → Prop where
  | load (file : Option Text) : Session (load file) file
  | op {m : MidInfo} {op : MidOp} {file : Option Text} : Session m file → op.Ok → Session (m.apply op) file
  | save {m : MidInfo} {file : Option Text} : Session m file → Session (m.save file).1 (m.save file).2

theorem Session.keyed (h : Session m file) : Keyed m.states := by
  induction h with
  | load file => exact keyed_load
  | op _ hop ih => exact keyed_apply ih hop
  | @save m file _ ih =>
    unfold MidInfo.save
    split
    · exact keyed_merge ih
    · exact ih

theorem Session.run (h : Session m file) (hops : ∀ op ∈ ops, op.Ok) : Session (m.run ops) file := by
  induction ops using List.reverseRecOn with
  | nil => exact h
  | append_singleton ops op ih =>
    rw [run_append]
    exact (ih fun op hop => hops op (List.mem_append_left _ hop)).op (hops op (by simp))

/-- What the file has is in memory too. -/
theorem Session.held (h : Session m file) (hm : m.entry mid = none) : (MidInfo.load file).entry mid = none := by
  induction h with
  | load file => exact hm
  | @op m op file _ _ ih =>
    refine ih ?_
    by_contra hsome
    obtain ⟨e, he⟩ := Option.ne_none_iff_exists'.mp hsome
    rw [entry_apply_of_some he] at hm
    cases hm
  | @save m file h ih =>
    rw [entry_load_save h.keyed]
    unfold MidInfo.save at hm
    split
    · next hup =>
      rw [if_pos hup] at hm
      rw [← entry_merge, hm]
      rfl
    · next hdown =>
      rw [if_neg hdown] at hm
      exact ih hm

/-- What is in memory is in the file, as long as the flag is down. -/
theorem Session.filed (h : Session m file) (hdown : m.changed = false) (hm : (MidInfo.load file).entry mid = none) :
    m.entry mid = none := by
  induction h with
  | load file => exact hm
  | @op m op file _ _ ih =>
    have hdown' : m.changed = false := by
      by_contra hup
      exact absurd ((changed_apply (by simpa using hup)).symm.trans hdown) (by simp)
    exact entry_unraised_of_none hdown (ih hdown' hm)
  | @save m file h ih =>
    unfold MidInfo.save at hdown hm ⊢
    split
    · next hup =>
      rw [if_pos hup] at hdown
      exact absurd (hup.symm.trans (changed_merge.symm.trans hdown)) (by simp)
    · next hnot =>
      rw [if_neg hnot] at hdown hm
      exact ih hdown hm

/-! ### What the operations ask for -/

/-- Whether a message-id is to be found. -/
inductive Wanted where
  | present
  | absent
  | either
deriving DecidableEq

/-- The last insertion or removal counts. One that was inserted may go when `do_delete_fun` takes it to be expired. -/
def MidOp.wanted (mid : Text) (m : MidInfo) (w : Wanted) : MidOp → Wanted
  | .insert x _ => if x = mid then .present else w
  | .remove x => if x = mid then .absent else w
  | .setDelete _ _ => w
  | .doDeleteFun relMid curtime =>
    if w = .present ∧ (m.entry mid).any (fun e => Expires relMid curtime mid e) then .either else w

def wanted (mid : Text) : MidInfo → Wanted → List MidOp → Wanted
  | _, w, [] => w
  | m, w, op :: ops => wanted mid (m.apply op) (op.wanted mid m w) ops

/-- What is wanted of a message-id is what `check` says. -/
def Wanted.Holds (mid : Text) (m : MidInfo) : Wanted → Prop
  | .present => m.check mid = true
  | .absent => m.check mid = false
  | .either => True

/-- An operation on a message-id that does not come upon a dead entry, or make one that `check` finds. -/
def MidOp.Sound (mid : Text) (m : MidInfo) : MidOp → Prop
  | .insert x _ => x = mid → ∀ e, m.entry mid = some e → ¬e.Dead
  | .remove x => x = mid → m.check mid = false
  | .setDelete x now => x = mid → now ≠ timeTDead
  | .doDeleteFun _ _ => True

/-- Each operation of the run is one. -/
def SoundRun (mid : Text) : MidInfo → List MidOp → Prop
  | _, [] => True
  | m, op :: ops => op.Sound mid m ∧ SoundRun mid (m.apply op) ops

/-- What the table has for a message-id of which this is wanted. -/
def Wanted.Fits (e : Option MidEntry) : Wanted → Prop
  | .present => ∃ e', e = some e' ∧ ¬e'.Dead
  | .absent => e = none
  | .either => True

/-- An operation that adds no entry for the message-id, and leaves a live one alive. -/
theorem Wanted.Fits.keep {w : Wanted} (h : w.Fits (m.entry mid)) (hadded : op.added mid = none)
    (hlive : ∀ e, m.entry mid = some e → ¬e.Dead → op.dateRemoved mid e ≠ timeTDead) : w.Fits ((m.apply op).entry mid) := by
  cases w with
  | present =>
    obtain ⟨e, he, hdead⟩ := h
    exact ⟨_, entry_apply_of_some he, hlive e he hdead⟩
  | absent => exact (entry_apply_of_none h).trans hadded
  | either => trivial

theorem Wanted.Fits.apply {w : Wanted} (h : w.Fits (m.entry mid)) (hop : op.Sound mid m) :
    (op.wanted mid m w).Fits ((m.apply op).entry mid) := by
  cases op with
  | insert x now =>
    rw [MidOp.wanted]
    by_cases hx : x = mid
    · rw [if_pos hx]
      refine ⟨_, entry_insert.trans (if_pos hx), ?_⟩
      cases he : m.entry mid with
      | none => exact (by decide : timeTMax1 ≠ timeTDead)
      | some e => exact hop hx e he
    · rw [if_neg hx]
      exact h.keep (if_neg hx) fun e _ hdead => hdead
  | remove x =>
    rw [MidOp.wanted]
    by_cases hx : x = mid
    · rw [if_pos hx]
      exact entry_apply_of_none (entry_eq_none.mpr (hop hx))
    · rw [if_neg hx]
      refine h.keep rfl fun e _ hdead => ?_
      rw [MidOp.dateRemoved, if_neg (Ne.symm hx)]
      exact hdead
  | setDelete x now =>
    refine h.keep rfl fun e _ hdead => ?_
    rw [MidOp.dateRemoved]
    split
    · next hx => exact hop hx.symm
    · exact hdead
  | doDeleteFun relMid curtime =>
    rw [MidOp.wanted]
    split
    · trivial
    · next hnot =>
      cases w with
      | present =>
        refine h.keep rfl fun e he hdead => ?_
        have hexp : ¬Expires relMid curtime mid e := fun hexp => hnot ⟨rfl, by simpa [he] using hexp⟩
        rw [MidOp.dateRemoved, if_neg hexp]
        exact hdead
      | absent => exact entry_apply_of_none h
      | either => trivial

theorem fits_run : ∀ {ops : List MidOp} {m : MidInfo} {w : Wanted}, w.Fits (m.entry mid) → SoundRun mid m ops →
    (wanted mid m w ops).Fits ((m.run ops).entry mid)
  | [], _, _, h, _ => h
  | op :: ops, m, w, h, hs => @fits_run ops (m.apply op) (op.wanted mid m w) (h.apply hs.1) hs.2

/-- The last operation on a message-id wins, before the `save` and behind it. -/
theorem last_operation_wins (h : Session m file) (hops : ∀ op ∈ ops, op.Ok)
    (hfile : ∀ e, (load file).entry mid = some e → ¬e.Dead) (hsound : SoundRun mid m ops) :
    (wanted mid m .either ops).Holds mid (m.run ops) ∧
      (wanted mid m .either ops).Holds mid (load ((m.run ops).save file).2) := by
  have hsession := h.run hops
  have hfits : (wanted mid m .either ops).Fits ((m.run ops).entry mid) := fits_run trivial hsound
  have hload := @entry_load_save (m.run ops) mid file hsession.keyed
  cases hw : wanted mid m .either ops with
  | present =>
    rw [hw] at hfits
    obtain ⟨e, he, hdead⟩ := hfits
    refine ⟨check_eq.trans (he ▸ rfl), check_eq.trans ?_⟩
    rw [hload]
    split
    · obtain ⟨e', he'⟩ := Option.isSome_iff_exists.mp
        (Latest.isSome_merge.trans (by rw [he, Option.isSome_some, Bool.true_or]) :
          (Latest.merge MidEntry.rank ((m.run ops).entry mid) ((load file).entry mid)).isSome = true)
      have hlive : ¬e'.Dead := by
        rcases Latest.merge_eq_some he' with h | h
        · exact Option.some.inj (he.symm.trans h) ▸ hdead
        · exact hfile e' h
      rw [he', Option.filter_some, if_pos (by simpa using hlive)]
      rfl
    · next hdown =>
      by_contra hnone
      rw [Option.not_isSome_iff_eq_none] at hnone
      exact absurd (he.symm.trans (hsession.filed (by simpa using hdown) hnone)) (by simp)
  | absent =>
    rw [hw] at hfits
    have hnone : (load file).entry mid = none := hsession.held hfits
    refine ⟨entry_eq_none.mp hfits, entry_eq_none.mp ?_⟩
    rw [hload, hfits, hnone]
    split <;> rfl
  | either => exact ⟨trivial, trivial⟩

theorem last_operation_wins_sample :
    (wanted "<a>".toList (load none) .either [.insert "<a>".toList 1000, .remove "<b>".toList]).Holds "<a>".toList
        ((load none).run [.insert "<a>".toList 1000, .remove "<b>".toList]) ∧
      (wanted "<a>".toList (load none) .either [.insert "<a>".toList 1000, .remove "<b>".toList]).Holds "<a>".toList
        (load (((load none).run [.insert "<a>".toList 1000, .remove "<b>".toList]).save none).2) := by
  refine last_operation_wins (.load none) (fun op hop => ?_) (fun e he => ?_) ⟨fun _ e he => ?_, fun h => ?_, trivial⟩
  · simp only [List.mem_cons, List.not_mem_nil, or_false] at hop
    rcases hop with rfl | rfl
    · exact ⟨by decide, by decide, by decide, by decide⟩
    · trivial
  · cases he
  · cases he
  · exact absurd h (by decide)

/-- A message-id is inserted, removed and inserted, and the file does not have it. -/
theorem insert_after_remove_lost : ¬∀ (m : MidInfo) (file : Option Text) (ops : List MidOp) (mid : Text), Session m file →
    (∀ op ∈ ops, op.Ok) → (wanted mid m .either ops).Holds mid (m.run ops) ∧
      (wanted mid m .either ops).Holds mid (load ((m.run ops).save file).2) := by
  intro h
  let ops : List MidOp := [.insert "<a>".toList 1000, .remove "<a>".toList, .insert "<a>".toList 2000]
  have hok : ∀ op ∈ ops, op.Ok := by
    intro op hop
    simp only [ops, List.mem_cons, List.not_mem_nil, or_false] at hop
    rcases hop with rfl | rfl | rfl
    · exact ⟨by decide, by decide, by decide, by decide⟩
    · trivial
    · exact ⟨by decide, by decide, by decide, by decide⟩
  have hafter : (load (((load none).run ops).save none).2).check "<a>".toList = true :=
    (h (load none) none ops "<a>".toList (.load none) hok).2
  exact absurd hafter (by decide)

end MidInfo
end Nget

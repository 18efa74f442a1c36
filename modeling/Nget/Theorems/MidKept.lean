import Nget.Theorems.MidSave

/-! What a process has recorded in memory, and what its `save` leaves in the file. Without the flag nothing is written,
    and then only `set_delete` can have changed an entry, for it does not raise the flag. With the flag the file is merged
    in first, and an entry stays as it is unless the file records a later removal of its message-id. -/

namespace Nget
namespace MidInfo
variable {m : MidInfo} {mid : Text} {op : MidOp} {ops : List MidOp} {file : Option Text}

/-- A message-id that is inserted can be written. -/
def MidOp.Ok : MidOp → Prop
  | .insert mid _ => MidOk mid
  | _ => True

theorem run_append : m.run (ops ++ [op]) = (m.run ops).apply op := List.foldl_append

/-! ### One operation -/

theorem keyed_apply (h : Keyed m.states) (hop : op.Ok) : Keyed (m.apply op).states := by
  cases op with
  | insert mid now => exact keyed_insert h hop
  | remove mid => exact keyed_remove h
  | setDelete mid now => exact keyed_setDelete h
  | doDeleteFun relMid curtime => exact keyed_doDeleteFun h

/-- The removal date that an operation leaves in the entry of a message-id. -/
def MidOp.dateRemoved (mid : Text) (e : MidEntry) : MidOp → Int64
  | .insert _ _ => e.dateRemoved
  | .remove x => if mid = x then timeTDead else e.dateRemoved
  | .setDelete x now => if mid = x then now else e.dateRemoved
  | .doDeleteFun relMid curtime => if Expires relMid curtime mid e then timeTDead else e.dateRemoved

/-- What an operation makes of a message-id without an entry. -/
def MidOp.added (mid : Text) : MidOp → Option MidEntry
  | .insert x now => if x = mid then some ⟨now, timeTMax1⟩ else none
  | _ => none

/-- No operation takes an entry out of the table, or changes when it was added. -/
theorem entry_apply_of_some {e : MidEntry} (he : m.entry mid = some e) :
    (m.apply op).entry mid = some { e with dateRemoved := op.dateRemoved mid e } := by
  cases op with
  | insert x now =>
    refine entry_insert.trans ?_
    rw [he]
    split <;> rfl
  | remove x =>
    refine entry_remove.trans ?_
    rw [he, Option.map_some, MidOp.dateRemoved]
    split <;> rfl
  | setDelete x now =>
    refine entry_setDelete.trans ?_
    rw [he, Option.map_some, MidOp.dateRemoved]
    split <;> rfl
  | doDeleteFun relMid curtime =>
    refine entry_doDeleteFun.trans ?_
    rw [he, Option.map_some, MidOp.dateRemoved]
    split <;> rfl

theorem entry_apply_of_none (he : m.entry mid = none) : (m.apply op).entry mid = op.added mid := by
  cases op with
  | insert x now =>
    refine entry_insert.trans ?_
    rw [he]
    rfl
  | remove x =>
    refine entry_remove.trans ?_
    rw [he]
    rfl
  | setDelete x now =>
    refine entry_setDelete.trans ?_
    rw [he]
    rfl
  | doDeleteFun relMid curtime =>
    refine entry_doDeleteFun.trans ?_
    rw [he]
    rfl

theorem check_apply (h : m.check mid = true) : (m.apply op).check mid = true := by
  obtain ⟨e, he⟩ := Option.isSome_iff_exists.mp (check_eq.symm.trans h)
  exact check_eq.trans (entry_apply_of_some he ▸ rfl)

theorem changed_apply (h : m.changed = true) : (m.apply op).changed = true := by
  cases op with
  | insert x now =>
    refine changed_insert.trans ?_
    rw [h, Bool.true_or]
  | remove x =>
    refine changed_remove.trans ?_
    rw [h, Bool.true_or]
  | setDelete x now => exact h
  | doDeleteFun relMid curtime =>
    change (m.changed || _) = true
    rw [h, Bool.true_or]

/-- An operation that leaves the flag down adds no entry. -/
theorem entry_unraised_of_none (h : (m.apply op).changed = false) (he : m.entry mid = none) :
    (m.apply op).entry mid = none := by
  rw [entry_apply_of_none he]
  cases op with
  | insert x now =>
    refine if_neg fun hx => ?_
    have hraised : (m.insert x now).changed = true := by
      rw [changed_insert, entry_eq_none.mp (hx ▸ he)]
      simp
    exact absurd (hraised.symm.trans h) (by simp)
  | _ => rfl

/-- The removal date that a `set_delete` gives to a message-id. -/
def MidOp.setDate (mid : Text) : MidOp → Option Int64
  | .setDelete x now => if mid = x then some now else none
  | _ => none

/-- An operation that leaves the flag down changes no removal date, unless it is `set_delete`. -/
theorem dateRemoved_unraised {e : MidEntry} (h : (m.apply op).changed = false) (he : m.entry mid = some e) :
    op.dateRemoved mid e = (op.setDate mid).getD e.dateRemoved := by
  cases op with
  | insert x now => rfl
  | remove x =>
    refine if_neg fun hx => ?_
    have hraised : (m.remove x).changed = true := by
      rw [changed_remove, ← hx, check_eq, he]
      simp
    exact absurd (hraised.symm.trans h) (by simp)
  | setDelete x now =>
    unfold MidOp.dateRemoved MidOp.setDate
    by_cases hx : mid = x <;> simp [hx]
  | doDeleteFun relMid curtime =>
    refine if_neg fun hexp => ?_
    exact absurd ((changed_doDeleteFun he hexp).symm.trans h) (by simp)

/-! ### A run -/

theorem keyed_run : ∀ {ops : List MidOp} {m : MidInfo}, Keyed m.states → (∀ op ∈ ops, op.Ok) → Keyed (m.run ops).states
  | [], _, h, _ => h
  | op :: ops, m, h, hops =>
    @keyed_run ops (m.apply op) (keyed_apply h (hops op List.mem_cons_self)) fun op hop => hops op (List.mem_cons_of_mem _ hop)

theorem entry_run_of_some {e : MidEntry} (he : m.entry mid = some e) :
    ∃ d, (m.run ops).entry mid = some { e with dateRemoved := d } := by
  induction ops using List.reverseRecOn with
  | nil => exact ⟨_, he⟩
  | append_singleton ops op ih =>
    obtain ⟨d, hd⟩ := ih
    rw [run_append, entry_apply_of_some hd]
    exact ⟨_, rfl⟩

/-- The removal date that the last `set_delete` of a message-id gives. -/
def lastSetDelete (mid : Text) (ops : List MidOp) : Option Int64 := ops.foldl (fun d op => (op.setDate mid).or d) none

theorem lastSetDelete_append :
    lastSetDelete mid (ops ++ [op]) = (op.setDate mid).or (lastSetDelete mid ops) := List.foldl_append

/-- Without the flag the table is as it was, but for the removal dates that `set_delete` gave. -/
theorem entry_run_unraised (h : (m.run ops).changed = false) : (m.run ops).entry mid =
    (m.entry mid).map fun e => { e with dateRemoved := (lastSetDelete mid ops).getD e.dateRemoved } := by
  induction ops using List.reverseRecOn with
  | nil => exact Option.map_id'.symm
  | append_singleton ops op ih =>
    rw [run_append] at h ⊢
    have hdown : (m.run ops).changed = false := by
      by_contra hup
      exact absurd ((changed_apply (by simpa using hup)).symm.trans h) (by simp)
    have hrun := ih hdown
    rw [lastSetDelete_append]
    cases he : m.entry mid with
    | none =>
      rw [he] at hrun
      exact entry_unraised_of_none h hrun
    | some e =>
      rw [he, Option.map_some] at hrun
      rw [entry_apply_of_some hrun, dateRemoved_unraised h hrun, Option.map_some, Option.getD_or]

/-! ### `save` and a fresh load -/

/-- What a load gives behind a `save`: the merged entries that are not dead, or the file as it was. -/
theorem entry_load_save (h : Keyed m.states) : (load (m.save file).2).entry mid =
    if m.changed then (Latest.merge MidEntry.rank (m.entry mid) ((load file).entry mid)).filter fun e => ¬e.Dead
    else (load file).entry mid := by
  unfold save
  split
  · rw [entry_load_saveText (keyed_merge h), entry_merge]
  · rfl

/-- A load behind the `save` gives what is in memory and not dead. -/
def Stored (file : Option Text) (m : MidInfo) : Prop :=
  ∀ mid, (load (m.save file).2).entry mid = (m.entry mid).filter fun e => ¬e.Dead

/-- The condition for that. With the flag up, what the file says was removed has no earlier removal date in memory; with
    the flag down, no entry of the file is dead, and `set_delete` gave no entry of the file another removal date. -/
def Keeping (file : Option Text) (ops : List MidOp) : Prop :=
  if ((load file).run ops).changed then
    ∀ mid e e₀, ((load file).run ops).entry mid = some e → (load file).entry mid = some e₀ →
      e₀.dateRemoved ≠ timeTMax1 → e.dateRemoved ≠ timeTMax1 ∧ e₀.dateRemoved ≤ e.dateRemoved
  else ∀ mid e₀, (load file).entry mid = some e₀ → ¬e₀.Dead ∧ ∀ d ∈ lastSetDelete mid ops, d = e₀.dateRemoved

/-- Of two entries that were added together the merged one is as good as the first exactly when the second is not later. -/
theorem merge_live_iff {e e' : MidEntry} (hadded : e.dateAdded = e'.dateAdded) :
    (Latest.merge MidEntry.rank (some e) (some e')).filter (fun e => decide ¬e.Dead) =
      (some e).filter (fun e => decide ¬e.Dead) ↔
      (e'.dateRemoved ≠ timeTMax1 → e.dateRemoved ≠ timeTMax1 ∧ e'.dateRemoved ≤ e.dateRemoved) := by
  have hlater : (e'.dateRemoved ≠ timeTMax1 → e.dateRemoved ≠ timeTMax1 ∧ e'.dateRemoved ≤ e.dateRemoved) ↔
      ¬e.rank < e'.rank := by rw [MidEntry.rank_lt_iff, not_and, not_or, Int64.not_lt]
  rw [hlater, Latest.merge_some]
  rcases lt_trichotomy e.rank e'.rank with hlt | heq | hgt
  · have hne : e.dateRemoved ≠ e'.dateRemoved := fun h => hlt.ne (MidEntry.rank_inj.mpr h)
    rw [if_neg hlt.not_gt]
    refine iff_of_false (fun h => ?_) (not_not.mpr hlt)
    rw [Option.filter_some, Option.filter_some] at h
    by_cases hdead : e.Dead <;> by_cases hdead' : e'.Dead
    · exact hne (hdead.trans hdead'.symm)
    · simp [hdead, hdead'] at h
    · simp [hdead, hdead'] at h
    · rw [if_pos (by simpa using hdead'), if_pos (by simpa using hdead)] at h
      exact hne (congrArg MidEntry.dateRemoved (Option.some.inj h)).symm
  · have he : e = e' := by
      cases e
      cases e'
      exact MidEntry.mk.injEq .. ▸ ⟨hadded, MidEntry.rank_inj.mp heq⟩
    simp [he]
  · rw [if_pos hgt]
    exact iff_of_true rfl hgt.not_gt

/-- An entry with another removal date, if it is written at all, is not the entry. -/
theorem eq_redated_iff {e : MidEntry} {d : Int64} :
    some e = (some { e with dateRemoved := d }).filter (fun e => decide ¬e.Dead) ↔ ¬e.Dead ∧ d = e.dateRemoved := by
  rw [Option.filter_some]
  constructor
  · intro h
    split at h
    · next hlive =>
      have hd : d = e.dateRemoved := (congrArg MidEntry.dateRemoved (Option.some.inj h)).symm
      subst hd
      exact ⟨by simpa using hlive, rfl⟩
    · cases h
  · rintro ⟨hlive, rfl⟩
    exact (if_pos (by simpa using hlive)).symm

theorem saved_entries_iff (hops : ∀ op ∈ ops, op.Ok) : Stored file ((load file).run ops) ↔ Keeping file ops := by
  have hkeyed : Keyed ((load file).run ops).states := keyed_run keyed_load hops
  unfold Stored Keeping
  split
  · next hup =>
    refine forall_congr' fun mid => ?_
    rw [entry_load_save hkeyed, if_pos hup]
    cases he₀ : (load file).entry mid with
    | none => simp
    | some e₀ =>
      obtain ⟨d, hd⟩ : ∃ d, ((load file).run ops).entry mid = some { e₀ with dateRemoved := d } := entry_run_of_some he₀
      rw [hd, @merge_live_iff ⟨e₀.dateAdded, d⟩ e₀ rfl]
      simp
  · next hdown =>
    refine forall_congr' fun mid => ?_
    rw [entry_load_save hkeyed, if_neg hdown, entry_run_unraised (by simpa using hdown)]
    cases he₀ : (load file).entry mid with
    | none => simp
    | some e₀ =>
      rw [Option.map_some, eq_redated_iff]
      cases lastSetDelete mid ops <;> simp

theorem saved_entries_iff_sample : Stored none
    ((load none).run [.insert "<a>".toList 1000, .setDelete "<a>".toList 2000, .insert "<b>".toList 3000,
      .remove "<b>".toList]) := by
  refine (saved_entries_iff fun op hop => ?_).mpr ?_
  · have hok : MidOk "<a>".toList ∧ MidOk "<b>".toList :=
      ⟨⟨by decide, by decide, by decide, by decide⟩, ⟨by decide, by decide, by decide, by decide⟩⟩
    simp only [List.mem_cons, List.not_mem_nil, or_false] at hop
    rcases hop with rfl | rfl | rfl | rfl
    · exact hok.1
    · trivial
    · exact hok.2
    · trivial
  · unfold Keeping
    rw [if_pos (by decide)]
    intro mid e e₀ _ he₀
    cases he₀

/-- The file has one entry, `set_delete` gives it a removal date, and `save` writes nothing. -/
theorem set_delete_not_saved : ¬∀ (file : Option Text) (ops : List MidOp), (∀ op ∈ ops, op.Ok) →
    Stored file ((load file).run ops) := by
  intro h
  have hstored := h (some "<a> 1000 2147483646\n".toList) [.setDelete "<a>".toList 2000] (by simp [MidOp.Ok]) "<a>".toList
  revert hstored
  decide +kernel

end MidInfo
end Nget

import Nget.Theorems.MidEntries

/-! The text that `save` writes says what is in memory: a line for each state that is not dead, which a load reads as that
    state. It takes message-ids without blanks and line ends, and one state for each of them, which all operations keep. -/

namespace Nget
open CString Latest

/-- The message-id has no blank, no line end and no NUL. -/
structure MidOk (mid : Text) : Prop where
  blank : ' ' ∉ mid
  newline : '\n' ∉ mid
  cr : '\r' ∉ mid
  nul : nul ∉ mid

namespace MidInfo
variable {m : MidInfo} {mid x : Text} {now curtime : Int64} {relMid : MidInfo} {s : MessageState} {l : List MessageState}

/-- Each message-id has one state, and can be written. -/
structure Keyed (l : List MessageState) : Prop where
  nodup : (l.map (·.messageid)).Nodup
  midOk : ∀ s ∈ l, MidOk s.messageid

theorem Keyed.append (h : Keyed l) (hs : s.messageid ∉ l.map (·.messageid)) (hok : MidOk s.messageid) : Keyed (l ++ [s]) where
  nodup := by
    rw [List.map_append]
    exact h.nodup.append (List.nodup_singleton _) (by simpa using hs)
  midOk s' hs' := by
    rcases List.mem_append.mp hs' with hs' | hs'
    · exact h.midOk s' hs'
    · exact List.mem_singleton.mp hs' ▸ hok

theorem Keyed.sublist {l' : List MessageState} (h : Keyed l) (hl : l'.Sublist l) : Keyed l' where
  nodup := h.nodup.sublist (hl.map _)
  midOk s hs := h.midOk s (hl.subset hs)

/-- A change that leaves the message-ids. -/
theorem Keyed.map {g : MessageState → MessageState} (h : Keyed l) (hg : ∀ s, (g s).messageid = s.messageid) :
    Keyed (l.map g) where
  nodup := by
    rw [List.map_map, show (·.messageid) ∘ g = MessageState.messageid from funext hg]
    exact h.nodup
  midOk s hs := by
    obtain ⟨s', hs', rfl⟩ := List.mem_map.mp hs
    exact (hg s').symm ▸ h.midOk s' hs'

/-! ### The operations -/

theorem not_mem_of_not_check (h : ¬m.check x = true) : x ∉ m.states.map (·.messageid) := by
  intro hx
  obtain ⟨s, hs, rfl⟩ := List.mem_map.mp hx
  exact h (List.any_eq_true.mpr ⟨s, hs, by simp⟩)

theorem keyed_insert (h : Keyed m.states) (hx : MidOk x) : Keyed (m.insert x now).states := by
  unfold insert
  split
  · exact h
  · next hc => exact h.append (not_mem_of_not_check hc) hx

theorem keyed_remove (h : Keyed m.states) : Keyed (m.remove x).states := by
  unfold remove
  split
  · exact h.map fun s => by split <;> rfl
  · exact h

theorem keyed_setDelete (h : Keyed m.states) : Keyed (m.setDelete x now).states := h.map fun s => by split <;> rfl

theorem keyed_doDeleteFun (h : Keyed m.states) : Keyed (m.doDeleteFun relMid curtime).states :=
  h.map fun s => by split <;> rfl

theorem keyed_insertFull {a d : Int64} (h : Keyed m.states) (hx : MidOk x) : Keyed (m.insertFull x a d).states := by
  have herase : Keyed (m.states.filter (·.messageid ≠ x)) := h.sublist List.filter_sublist
  cases hfind : m.states.find? (·.messageid = x) with
  | none =>
    rw [insertFull, hfind]
    refine h.append (fun hx => ?_) hx
    obtain ⟨s, hs, hid⟩ := List.mem_map.mp hx
    exact List.find?_eq_none.mp hfind s hs (by simpa using hid)
  | some s =>
    rw [insertFull_of_find hfind]
    split
    · exact h
    · refine herase.append (fun hx => ?_) hx
      obtain ⟨s, hs, hid⟩ := List.mem_map.mp hx
      exact absurd hid (by simpa using (List.mem_filter.mp hs).2)

theorem keyed_mergeStates : ∀ {l : List MessageState} {m : MidInfo}, Keyed m.states → (∀ s ∈ l, MidOk s.messageid) →
    Keyed (m.mergeStates l).states
  | [], _, h, _ => h
  | s :: l, m, h, hl => by
    have hhead := keyed_insertFull (a := s.dateAdded) (d := s.dateRemoved) h (hl s List.mem_cons_self)
    exact keyed_mergeStates (l := l) hhead fun s' hs' => hl s' (List.mem_cons_of_mem _ hs')

/-! ### The text -/

theorem midOk_cstr {line t : Text} (hline : '\n' ∉ line) (ht : t ∈ splitLine ' ' line) : MidOk (cstr t) := by
  obtain ⟨hblank, hsub⟩ := mem_split ht
  have hcstr : cstr t ⊆ t := List.takeWhile_subset _
  refine ⟨fun h => hblank (hcstr h), fun h => ?_, fun h => ?_, fun h => ?_⟩
  · exact hline (List.mem_filter.mp (hsub (hcstr h))).1
  · simpa using (List.mem_filter.mp (hsub (hcstr h))).2
  · simpa using List.mem_takeWhile_imp h

/-- A message-id that a line says can be written. -/
theorem midOk_fileStates {f : Text} (hs : s ∈ fileStates f) : MidOk s.messageid := by
  obtain ⟨line, hline, hs⟩ := List.mem_filterMap.mp hs
  unfold lineState at hs
  split at hs
  · next mid a d heq =>
    cases hs
    obtain ⟨t, ht, rfl⟩ := List.mem_map.mp (heq ▸ List.mem_cons_self : mid ∈ (splitLine ' ' line).map cstr)
    exact midOk_cstr (newline_of_mem_bufLines hline) ht
  · cases hs

theorem keyed_merge {file : Option Text} (h : Keyed m.states) : Keyed (m.merge file).states := by
  cases file with
  | none => exact h
  | some f =>
    rw [merge_some]
    exact keyed_mergeStates h fun _ => midOk_fileStates

theorem keyed_load {file : Option Text} : Keyed (load file).states :=
  @keyed_merge {} file ⟨List.nodup_nil, by simp⟩

theorem midOk_printLong (n : Int64) : MidOk (printLong n) where
  blank := not_mem_printLong (by decide) (by decide)
  newline := not_mem_printLong (by decide) (by decide)
  cr := not_mem_printLong (by decide) (by decide)
  nul := not_mem_printLong (by decide) (by decide)

/-- The fields of a state's line. -/
def stateFields (s : MessageState) : List Text := [s.messageid, printLong s.dateAdded, printLong s.dateRemoved]

theorem midOk_stateFields (hs : MidOk s.messageid) : ∀ t ∈ stateFields s, MidOk t := by
  intro t ht
  rcases List.mem_cons.mp ht with rfl | ht
  · exact hs
  · rcases List.mem_cons.mp ht with rfl | ht
    · exact midOk_printLong _
    · exact List.mem_singleton.mp ht ▸ midOk_printLong _

theorem stateLine_eq (hs : MidOk s.messageid) : stateLine s = joinWith ' ' (stateFields s) ++ ['\n'] := by
  unfold stateLine
  rw [cstr_of_not_mem hs.nul]
  simp [stateFields, joinWith]

theorem lineState_joinWith (hs : MidOk s.messageid) : lineState (joinWith ' ' (stateFields s)) = some s := by
  have hok := midOk_stateFields hs
  have hcr : dropCr (joinWith ' ' (stateFields s)) = joinWith ' ' (stateFields s) := List.filter_eq_self.mpr fun c hc => by
    rcases mem_joinWith hc with rfl | ⟨t, ht, hc⟩
    · decide
    · simpa using fun h : c = '\r' => (hok t ht).cr (h ▸ hc)
  have hcstr : (stateFields s).map cstr = stateFields s := by
    refine (List.map_congr_left fun t ht => ?_).trans (List.map_id _)
    exact cstr_of_not_mem (hok t ht).nul
  unfold lineState splitLine
  rw [hcr, split_joinWith (by simp [stateFields]) fun t ht => (hok t ht).blank, hcstr]
  simp [stateFields, atol_printLong]

theorem newline_joinWith_stateFields (hs : MidOk s.messageid) : '\n' ∉ joinWith ' ' (stateFields s) := fun hm => by
  rcases mem_joinWith hm with h | ⟨t, ht, hm⟩
  · exact absurd h (by decide)
  · exact (midOk_stateFields hs t ht).newline hm

/-- Each line is read as the state that it was written for. -/
theorem fileStates_stateLines : ∀ {l : List MessageState}, (∀ s ∈ l, MidOk s.messageid) → fileStates (l.flatMap stateLine) = l
  | [], _ => rfl
  | s :: l, h => by
    have hs := h s List.mem_cons_self
    have hline : (s :: l).flatMap stateLine = joinWith ' ' (stateFields s) ++ '\n' :: l.flatMap stateLine := by
      simp [stateLine_eq hs]
    have ih : fileStates (l.flatMap stateLine) = l := fileStates_stateLines fun s hs => h s (List.mem_cons_of_mem _ hs)
    unfold fileStates at ih ⊢
    rw [hline, bufLines_append (newline_joinWith_stateFields hs), List.filterMap_cons, lineState_joinWith hs]
    exact congrArg (s :: ·) ih

/-! ### Saving and loading -/

/-- A table of lines that each say another message-id has the lines' entries. -/
theorem latest_of_keyed : ∀ {l : List MessageState}, (l.map (·.messageid)).Nodup →
    latest MidEntry.rank none ((l.filter (·.messageid = mid)).map MessageState.entry) = entryOf l mid
  | [], _ => rfl
  | s :: l, hn => by
    obtain ⟨hs, hn⟩ := List.nodup_cons.mp hn
    rw [entryOf_cons]
    split
    · next h =>
      have hrest : l.filter (·.messageid = mid) = [] := List.filter_eq_nil_iff.mpr fun s' hs' h' =>
        hs (List.mem_map.mpr ⟨s', hs', (of_decide_eq_true h').trans h.symm⟩)
      rw [List.filter_cons_of_pos (by simpa using h), hrest]
      rfl
    · next h =>
      rw [List.filter_cons_of_neg (by simpa using h)]
      exact latest_of_keyed hn

/-- A load of what `save` writes gives the entries that are not dead. -/
theorem entry_load_saveText (h : Keyed m.states) :
    (load (some m.saveText)).entry mid = (m.entry mid).filter fun e => ¬e.Dead := by
  have hlive : m.states.filter (·.dateRemoved ≠ timeTDead) = m.states.filter fun s => decide (¬s.entry.Dead) := rfl
  have hkeyed : Keyed (m.states.filter (·.dateRemoved ≠ timeTDead)) := h.sublist List.filter_sublist
  rw [entry_load, saveText, fileStates_stateLines hkeyed.midOk, latest_of_keyed hkeyed.nodup, hlive]
  exact entryOf_filter (p := fun e => decide (¬e.Dead)) h.nodup

end MidInfo
end Nget

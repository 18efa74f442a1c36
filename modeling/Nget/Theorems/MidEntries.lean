import Nget.Lib.Latest
import Nget.MidFile
import Nget.Theorems.Lines

/-! What a `c_mid_info` records for each message-id. Every operation changes the entry of one message-id, or each entry
    by itself, and `load` merges the lines of a file: of two entries the one with the later removal date is kept. -/

namespace Nget
open CString Latest

/-- What is recorded for a message-id. -/
structure MidEntry where
  dateAdded : Int64
  dateRemoved : Int64
deriving DecidableEq

namespace MidEntry

/-- An entry that `save` does not write. -/
def Dead (e : MidEntry) : Prop := e.dateRemoved = timeTDead

instance (e : MidEntry) : Decidable e.Dead := inferInstanceAs (Decidable (e.dateRemoved = timeTDead))

/-- How late the removal date is: an entry that is not removed comes first. -/
def rank (e : MidEntry) : WithBot Int := if e.dateRemoved = timeTMax1 then ⊥ else (e.dateRemoved.toInt : WithBot Int)

theorem rank_lt_iff {e e' : MidEntry} : e.rank < e'.rank ↔
    e'.dateRemoved ≠ timeTMax1 ∧ (e.dateRemoved = timeTMax1 ∨ e.dateRemoved < e'.dateRemoved) := by
  unfold rank
  by_cases h' : e'.dateRemoved = timeTMax1
  · simp [h']
  · by_cases h : e.dateRemoved = timeTMax1
    · simp [h, h']
    · simp [h, h', Int64.lt_iff_toInt_lt]

theorem rank_inj {e e' : MidEntry} : e.rank = e'.rank ↔ e.dateRemoved = e'.dateRemoved := by
  unfold rank
  by_cases h' : e'.dateRemoved = timeTMax1 <;> by_cases h : e.dateRemoved = timeTMax1
  · simp [h, h']
  · simp [h, h']
  · simp [h, h', Ne.symm h']
  · simp [h, h', Int64.toInt_inj]

end MidEntry

def MessageState.entry (s : MessageState) : MidEntry := ⟨s.dateAdded, s.dateRemoved⟩

/-! ### The entries of a table -/

/-- The entry of a message-id. -/
def entryOf (states : List MessageState) (mid : Text) : Option MidEntry :=
  (states.find? (·.messageid = mid)).map MessageState.entry

section
variable {states : List MessageState} {s : MessageState} {mid : Text}

theorem entryOf_cons : entryOf (s :: states) mid = if s.messageid = mid then some s.entry else entryOf states mid := by
  unfold entryOf
  by_cases h : s.messageid = mid <;> simp [h]

theorem entryOf_append : entryOf (states ++ [s]) mid =
    (entryOf states mid).or (if s.messageid = mid then some s.entry else none) := by
  unfold entryOf
  rw [List.find?_append, Option.map_or]
  by_cases h : s.messageid = mid <;> simp [h]

theorem entryOf_erase {x : Text} :
    entryOf (states.filter (·.messageid ≠ x)) mid = if x = mid then none else entryOf states mid := by
  induction states with
  | nil => simp [entryOf]
  | cons s states ih =>
    by_cases hs : s.messageid = x
    · rw [List.filter_cons_of_neg (by simp [hs]), ih, entryOf_cons, hs]
      split <;> rfl
    · rw [List.filter_cons_of_pos (by simp [hs]), entryOf_cons, entryOf_cons, ih]
      by_cases hmid : s.messageid = mid
      · rw [if_pos hmid, if_pos hmid, if_neg fun h => hs (hmid.trans h.symm)]
      · rw [if_neg hmid, if_neg hmid]

theorem entryOf_eq_none : entryOf states mid = none ↔ ∀ s ∈ states, s.messageid ≠ mid := by
  simp [entryOf]

theorem isSome_entryOf : (entryOf states mid).isSome = states.any (·.messageid = mid) := by
  rw [entryOf, Option.isSome_map, List.isSome_find?]

/-- A change of the removal dates. -/
theorem entryOf_map {p : MessageState → Prop} [DecidablePred p] {d : Int64} :
    entryOf (states.map fun s => if p s then { s with dateRemoved := d } else s) mid =
      (entryOf states mid).map fun e => if p ⟨mid, e.dateAdded, e.dateRemoved⟩ then { e with dateRemoved := d } else e := by
  induction states with
  | nil => rfl
  | cons s states ih =>
    have hid : (if p s then { s with dateRemoved := d } else s).messageid = s.messageid := by split <;> rfl
    rw [List.map_cons, entryOf_cons, entryOf_cons, hid, ih]
    split
    · next hs =>
      subst hs
      exact congrArg some (apply_ite MessageState.entry _ _ _)
    · rfl

/-- The states that stay, where each message-id has one. -/
theorem entryOf_filter {p : MidEntry → Bool} (hn : (states.map (·.messageid)).Nodup) :
    entryOf (states.filter fun s => p s.entry) mid = (entryOf states mid).filter p := by
  induction states with
  | nil => rfl
  | cons s states ih =>
    obtain ⟨hs, hn⟩ := List.nodup_cons.mp hn
    rw [entryOf_cons]
    by_cases hp : p s.entry = true
    · rw [List.filter_cons, if_pos hp, entryOf_cons, ih hn]
      split
      · rw [Option.filter_some, if_pos hp]
      · rfl
    · rw [List.filter_cons, if_neg hp, ih hn]
      split
      · next hmid =>
        have hnone : entryOf states mid = none :=
          entryOf_eq_none.mpr fun s' hs' h => hs (List.mem_map.mpr ⟨s', hs', h.trans hmid.symm⟩)
        rw [hnone, Option.filter_some, if_neg hp, Option.filter_none]
      · rfl

end

/-! ### What the operations do -/

namespace MidInfo
variable {m : MidInfo} {mid x : Text} {now curtime : Int64} {relMid : MidInfo}

def entry (m : MidInfo) (mid : Text) : Option MidEntry := entryOf m.states mid

theorem check_eq : m.check mid = (m.entry mid).isSome := isSome_entryOf.symm

theorem entry_eq_none : m.entry mid = none ↔ m.check mid = false := by
  rw [check_eq, Option.isSome_eq_false_iff, Option.isNone_iff_eq_none]

theorem changed_insert : (m.insert x now).changed = (m.changed || !m.check x) := by
  unfold insert
  split <;> simp [*]

theorem changed_remove : (m.remove x).changed = (m.changed || m.check x) := by
  unfold remove
  split <;> simp [*]

theorem entry_insert : (m.insert x now).entry mid =
    if x = mid then some ((m.entry mid).getD ⟨now, timeTMax1⟩) else m.entry mid := by
  unfold insert
  split
  · next hx =>
    split
    · next h =>
      obtain ⟨e, he⟩ := Option.isSome_iff_exists.mp (check_eq ▸ hx)
      rw [← h, he]
      rfl
    · rfl
  · next hx =>
    rw [entry, entryOf_append, ← entry]
    dsimp only
    split
    · next h =>
      rw [Bool.not_eq_true, ← entry_eq_none, h] at hx
      rw [hx]
      rfl
    · rw [Option.or_none]

/-- A message-id's removal date. -/
theorem entry_setDelete : (m.setDelete x now).entry mid =
    (m.entry mid).map fun e => if mid = x then { e with dateRemoved := now } else e := entryOf_map

theorem entry_remove : (m.remove x).entry mid =
    (m.entry mid).map fun e => if mid = x then { e with dateRemoved := timeTDead } else e := by
  unfold remove
  split
  · exact entryOf_map
  · next hx =>
    cases he : m.entry mid with
    | none => rfl
    | some e =>
      have hne : mid ≠ x := by
        rintro rfl
        rw [check_eq, he] at hx
        exact hx rfl
      rw [Option.map_some, if_neg hne]

/-- The entry of a message-id that `do_delete_fun` marks. -/
def Expires (relMid : MidInfo) (curtime : Int64) (mid : Text) (e : MidEntry) : Prop :=
  relMid.check mid = false ∧ expired ⟨mid, e.dateAdded, e.dateRemoved⟩ curtime = true

instance (e : MidEntry) : Decidable (Expires relMid curtime mid e) :=
  inferInstanceAs (Decidable (_ ∧ _))

theorem entry_doDeleteFun : (m.doDeleteFun relMid curtime).entry mid =
    (m.entry mid).map fun e => if Expires relMid curtime mid e then { e with dateRemoved := timeTDead } else e := by
  refine entryOf_map.trans (congrArg (Option.map · _) (funext fun e => if_congr ?_ rfl rfl))
  simp [Expires]

/-- `do_delete_fun` raises the flag where it marks an entry. -/
theorem changed_doDeleteFun {e : MidEntry} (he : m.entry mid = some e) (hexp : Expires relMid curtime mid e) :
    (m.doDeleteFun relMid curtime).changed = true := by
  obtain ⟨s, hs, rfl⟩ := Option.map_eq_some_iff.mp he
  have hid : s.messageid = mid := by simpa using List.find?_some hs
  have hany : m.states.any (fun s => !relMid.check s.messageid && expired s curtime) = true := by
    refine List.any_eq_true.mpr ⟨s, List.mem_of_find?_eq_some hs, ?_⟩
    rw [Bool.and_eq_true, Bool.not_eq_true']
    subst hid
    exact hexp
  simp [doDeleteFun, hany]

/-! ### Merging a file -/

@[simp] theorem changed_insertFull {a d : Int64} : (m.insertFull x a d).changed = m.changed := by
  unfold insertFull
  split
  · split
    · rfl
    · split <;> rfl
  · rfl

theorem insertFull_of_find {a d : Int64} {s : MessageState} (hfind : m.states.find? (·.messageid = x) = some s) :
    m.insertFull x a d =
      if (⟨a, d⟩ : MidEntry).rank < s.entry.rank then m
      else { m with states := m.states.filter (·.messageid ≠ x) ++ [⟨x, a, d⟩] } := by
  have hlt := @MidEntry.rank_lt_iff ⟨a, d⟩ s.entry
  change _ ↔ s.dateRemoved ≠ timeTMax1 ∧ (d = timeTMax1 ∨ d < s.dateRemoved) at hlt
  unfold insertFull
  rw [hfind]
  simp only [hlt]
  by_cases hremoved : s.dateRemoved = timeTMax1
  · simp [hremoved]
  · by_cases hd : d = timeTMax1 <;> simp [hremoved, hd]

/-- Of the two entries of a message-id the later one is kept. -/
theorem entry_insertFull {a d : Int64} : (m.insertFull x a d).entry mid =
    if x = mid then some (keep MidEntry.rank (m.entry mid) ⟨a, d⟩) else m.entry mid := by
  have hentry : m.entry x = (m.states.find? (·.messageid = x)).map MessageState.entry := rfl
  cases hfind : m.states.find? (·.messageid = x) with
  | none =>
    have hput : m.insertFull x a d = { m with states := m.states ++ [⟨x, a, d⟩] } := by rw [insertFull, hfind]
    rw [hput, entry, entryOf_append, ← entry]
    dsimp only
    split
    · next h =>
      rw [← h, hentry, hfind]
      rfl
    · rw [Option.or_none]
  | some s =>
    rw [insertFull_of_find hfind]
    split
    · next hlt =>
      split
      · next h => rw [← h, hentry, hfind, Option.map_some, keep_some, if_pos hlt]
      · rfl
    · next hlt =>
      rw [entry, entryOf_append, entryOf_erase, ← entry]
      dsimp only
      split
      · next h =>
        rw [← h, hentry, hfind, Option.map_some, keep_some, if_neg hlt]
        rfl
      · rw [Option.or_none]

/-- The state that a line says, if it has its three tokens. -/
def lineState (line : Text) : Option MessageState :=
  match (splitLine ' ' line).map cstr with
  | [mid, a, d] => some ⟨mid, atol a, atol d⟩
  | _ => none

theorem lineState_eq {line : Text} : lineState line =
    let t := ((splitLine ' ' line).take 3).map cstr
    if (splitLine ' ' line).length = 3 then some ⟨t.getD 0 [], atol (t.getD 1 []), atol (t.getD 2 [])⟩ else none := by
  unfold lineState
  generalize splitLine ' ' line = t
  rcases t with _ | ⟨mid, _ | ⟨a, _ | ⟨d, _ | ⟨e, t⟩⟩⟩⟩ <;> simp

/-- The states that the lines of a file say. -/
def fileStates (f : Text) : List MessageState := (bufLines f).filterMap lineState

/-- Each line is merged into what is in memory. -/
def mergeStates (m : MidInfo) (l : List MessageState) : MidInfo :=
  l.foldl (fun m s => m.insertFull s.messageid s.dateAdded s.dateRemoved) m

theorem loadLoop_eq : ∀ {fuel : Nat} {m : MidInfo} {f : Text}, f.length ≤ fuel →
    loadLoop fuel m f = m.mergeStates (fileStates f)
  | 0, m, f, hf => by
    rw [List.length_eq_zero_iff.mp (Nat.le_zero.mp hf)]
    rfl
  | fuel + 1, m, f, hf => by
    unfold loadLoop
    cases f with
    | nil => rfl
    | cons c f =>
      have hne : c :: f ≠ [] := List.cons_ne_nil c f
      have hrest : (afterLine (c :: f)).length ≤ fuel := Nat.le_of_lt_succ ((length_afterLine hne).trans_le hf)
      rw [if_neg (by simp), btoks_splitLine (by decide) (by decide), fileStates, bufLines_eq hne, List.filterMap_cons]
      dsimp only
      rw [loadLoop_eq hrest, lineState_eq]
      split <;> rfl

theorem merge_some {f : Text} : m.merge (some f) = m.mergeStates (fileStates f) := loadLoop_eq le_rfl

@[simp] theorem changed_mergeStates : ∀ {l : List MessageState} {m : MidInfo}, (m.mergeStates l).changed = m.changed
  | [], _ => rfl
  | _ :: l, _ => (changed_mergeStates (l := l)).trans changed_insertFull

theorem entry_mergeStates : ∀ {l : List MessageState} {m : MidInfo}, (m.mergeStates l).entry mid =
    latest MidEntry.rank (m.entry mid) ((l.filter (·.messageid = mid)).map MessageState.entry)
  | [], _ => rfl
  | s :: l, m => by
    have ih := @entry_mergeStates l (m.insertFull s.messageid s.dateAdded s.dateRemoved)
    refine ih.trans ?_
    rw [entry_insertFull]
    by_cases hs : s.messageid = mid
    · rw [if_pos hs, List.filter_cons_of_pos (by simpa using hs)]
      rfl
    · rw [if_neg hs, List.filter_cons_of_neg (by simpa using hs)]

variable {file : Option Text}

@[simp] theorem changed_merge : (m.merge file).changed = m.changed := by
  cases file with
  | none => rfl
  | some f => rw [merge_some, changed_mergeStates]

@[simp] theorem changed_load : (load file).changed = false := rfl

theorem entry_load {f : Text} : (load (some f)).entry mid =
    latest MidEntry.rank none (((fileStates f).filter (·.messageid = mid)).map MessageState.entry) := by
  change (merge {} (some f)).entry mid = _
  rw [merge_some, entry_mergeStates]
  rfl

/-- A file is merged entry by entry, as what a fresh load of it gives. -/
theorem entry_merge : (m.merge file).entry mid = Latest.merge MidEntry.rank (m.entry mid) ((load file).entry mid) := by
  cases file with
  | none => rfl
  | some f => rw [merge_some, entry_mergeStates, latest_eq_merge, entry_load]

end MidInfo
end Nget

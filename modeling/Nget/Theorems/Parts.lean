import Nget.NntpFile

/-! The parts of a file. On parts in ascending order `lower_bound` splits the list at the part number, so
    `part` finds the part of a number, `addpart` keeps the order, and `removepart` undoes `addpart`. -/

namespace Nget
namespace NntpFileParts
variable {parts : List NntpPart} {partnum : Int32} {p q : NntpPart}

/-- The parts stand in ascending order of their numbers. -/
def Ascending (parts : List NntpPart) : Prop := parts.Pairwise fun a b => a.partnum ≤ b.partnum

/-- The parts stand in strictly ascending order of their numbers. -/
def Increasing (parts : List NntpPart) : Prop := parts.Pairwise fun a b => a.partnum < b.partnum

theorem Increasing.ascending (h : Increasing parts) : Ascending parts := h.imp fun hab => hab.le

theorem Ascending.getElem_le (h : Ascending parts) {i j : Nat} (hij : i ≤ j) {a b : NntpPart} (ha : parts[i]? = some a)
    (hb : parts[j]? = some b) : a.partnum ≤ b.partnum := by
  obtain ⟨hi, rfl⟩ := List.getElem?_eq_some_iff.mp ha
  obtain ⟨hj, rfl⟩ := List.getElem?_eq_some_iff.mp hb
  rcases hij.lt_or_eq with hlt | rfl
  · exact List.pairwise_iff_getElem.mp h i j hi hj hlt
  · exact le_rfl

/-- `i` splits the parts at `partnum`: those before it lie below, the others do not. -/
structure Splits (parts : List NntpPart) (partnum : Int32) (i : Nat) : Prop where
  le_length : i ≤ parts.length
  below : ∀ j a, j < i → parts[j]? = some a → a.partnum < partnum
  above : ∀ j a, i ≤ j → parts[j]? = some a → partnum ≤ a.partnum

/-- The loop keeps that the parts before `first` lie below and those from `first + len` on do not. -/
theorem lowerBoundLoop_splits (h : Ascending parts) :
    ∀ fuel first len, len ≤ fuel → first + len ≤ parts.length →
      (∀ j a, j < first → parts[j]? = some a → a.partnum < partnum) →
      (∀ j a, first + len ≤ j → parts[j]? = some a → partnum ≤ a.partnum) →
      Splits parts partnum (lowerBoundLoop parts partnum fuel first len)
  | 0, first, len, hfuel, hlen, hbelow, habove => ⟨by simp only [lowerBoundLoop]; omega, hbelow, fun j a hj =>
      habove j a (by simp only [lowerBoundLoop] at hj; omega)⟩
  | fuel + 1, first, len, hfuel, hlen, hbelow, habove => by
    unfold lowerBoundLoop
    split
    · next hpos =>
      have hin : first + len / 2 < parts.length := by omega
      have hmid : parts[first + len / 2]? = some parts[first + len / 2] := List.getElem?_eq_getElem hin
      dsimp only
      rw [hmid]
      dsimp only
      split
      · next hlt =>
        refine lowerBoundLoop_splits h fuel _ _ (by omega) (by omega) (fun j a hj ha => ?_) fun j a hj => habove j a (by omega)
        exact (h.getElem_le (show j ≤ first + len / 2 by omega) ha hmid).trans_lt hlt
      · next hge =>
        refine lowerBoundLoop_splits h fuel _ _ (by omega) (by omega) hbelow fun j a hj ha => ?_
        exact (not_lt.mp hge).trans (h.getElem_le hj hmid ha)
    · exact ⟨by omega, hbelow, fun j a hj => habove j a (by omega)⟩

theorem lowerBound_splits (h : Ascending parts) : Splits parts partnum (lowerBound parts partnum) :=
  lowerBoundLoop_splits h _ _ _ le_rfl (by omega) (fun j a hj => by omega) fun j a hj ha => by
    rw [List.getElem?_eq_none (by omega)] at ha
    cases ha

theorem Splits.mem_take {i : Nat} (hs : Splits parts partnum i) (hp : p ∈ parts.take i) : p.partnum < partnum := by
  obtain ⟨j, hj, rfl⟩ := List.mem_take_iff_getElem.mp hp
  exact hs.below j _ (by omega) (List.getElem?_eq_getElem _)

theorem Splits.mem_drop {i : Nat} (hs : Splits parts partnum i) (hp : p ∈ parts.drop i) : partnum ≤ p.partnum := by
  obtain ⟨j, hj, rfl⟩ := List.mem_drop_iff_getElem.mp hp
  exact hs.above (i + j) _ (by omega) (List.getElem?_eq_getElem _)

/-! ### Lookup -/

theorem part_eq_some (hp : part parts partnum = some p) :
    parts[lowerBound parts partnum]? = some p ∧ p.partnum = partnum := by
  unfold part at hp
  split at hp
  · next a ha =>
    split at hp
    · next hnum =>
      cases hp
      exact ⟨ha, hnum⟩
    · cases hp
  · cases hp

/-- In strictly ascending parts, `part` finds the part of a number. -/
theorem part_eq_some_iff (h : Increasing parts) : part parts partnum = some p ↔ p ∈ parts ∧ p.partnum = partnum := by
  have hs := @lowerBound_splits _ partnum h.ascending
  constructor
  · exact fun hp => ⟨List.mem_of_getElem? (part_eq_some hp).1, (part_eq_some hp).2⟩
  · rintro ⟨hp, rfl⟩
    obtain ⟨i, hi, rfl⟩ := List.mem_iff_getElem.mp hp
    have hle : lowerBound parts parts[i].partnum ≤ i := not_lt.mp fun hlt =>
      lt_irrefl _ (hs.below i _ hlt (List.getElem?_eq_getElem hi))
    have hge : i ≤ lowerBound parts parts[i].partnum := not_lt.mp fun hlt => by
      have hfirst : lowerBound parts parts[i].partnum < parts.length := by omega
      have := List.pairwise_iff_getElem.mp h _ _ hfirst hi hlt
      exact absurd (hs.above _ _ le_rfl (List.getElem?_eq_getElem hfirst)) (not_le.mpr this)
    unfold part
    rw [le_antisymm hle hge, List.getElem?_eq_getElem hi]
    simp

theorem part_eq_none_iff (h : Increasing parts) : part parts partnum = none ↔ ∀ p ∈ parts, p.partnum ≠ partnum := by
  constructor
  · intro hnone p hp hnum
    rw [(part_eq_some_iff h).mpr ⟨hp, hnum⟩] at hnone
    cases hnone
  · intro hnot
    cases hp : part parts partnum with
    | none => rfl
    | some p => exact absurd ((part_eq_some_iff h).mp hp).2 (hnot p ((part_eq_some_iff h).mp hp).1)

/-! ### Insertion and removal -/

theorem insertIdx_eq {α : Type} {l : List α} {i : Nat} {a : α} (h : i ≤ l.length) :
    l.insertIdx i a = l.take i ++ a :: l.drop i := by
  induction l generalizing i with
  | nil => simp [Nat.le_zero.mp h]
  | cons x l ih =>
    cases i with
    | zero => rfl
    | succ i => simp [ih (Nat.le_of_succ_le_succ h)]

theorem addpart_eq (h : Ascending parts) :
    addpart parts p = parts.take (lowerBound parts p.partnum) ++ p :: parts.drop (lowerBound parts p.partnum) :=
  insertIdx_eq (lowerBound_splits h).le_length

theorem addpart_perm (h : Ascending parts) : (addpart parts p).Perm (p :: parts) :=
  List.perm_insertIdx p parts (lowerBound_splits h).le_length

theorem mem_addpart (h : Ascending parts) : q ∈ addpart parts p ↔ q = p ∨ q ∈ parts :=
  (addpart_perm h).mem_iff.trans List.mem_cons

theorem ascending_addpart (h : Ascending parts) : Ascending (addpart parts p) := by
  have hs := @lowerBound_splits _ p.partnum h
  rw [addpart_eq h]
  unfold Ascending
  rw [List.pairwise_append, List.pairwise_cons]
  refine ⟨h.sublist (List.take_sublist _ _), ⟨fun b hb => hs.mem_drop hb, h.sublist (List.drop_sublist _ _)⟩, ?_⟩
  intro a ha b hb
  rcases List.mem_cons.mp hb with rfl | hb
  · exact (hs.mem_take ha).le
  · exact (hs.mem_take ha).le.trans (hs.mem_drop hb)

theorem increasing_addpart (h : Increasing parts) (hnew : ∀ q ∈ parts, q.partnum ≠ p.partnum) :
    Increasing (addpart parts p) := by
  have hs := @lowerBound_splits _ p.partnum h.ascending
  rw [addpart_eq h.ascending]
  unfold Increasing
  rw [List.pairwise_append, List.pairwise_cons]
  have hdrop : ∀ b ∈ parts.drop (lowerBound parts p.partnum), p.partnum < b.partnum := fun b hb =>
    (hs.mem_drop hb).lt_of_ne (hnew b (List.mem_of_mem_drop hb)).symm
  refine ⟨h.sublist (List.take_sublist _ _), ⟨hdrop, h.sublist (List.drop_sublist _ _)⟩, ?_⟩
  intro a ha b hb
  rcases List.mem_cons.mp hb with rfl | hb
  · exact hs.mem_take ha
  · exact (hs.mem_take ha).trans (hdrop b hb)

theorem Splits.eq {i j : Nat} (hi : Splits parts partnum i) (hj : Splits parts partnum j) : i = j := by
  have hle : ∀ {i j : Nat}, Splits parts partnum i → Splits parts partnum j → i ≤ j := fun {i j} hi hj => by
    by_contra hlt
    have hlt : j < i := not_le.mp hlt
    have hj' : j < parts.length := hlt.trans_le hi.le_length
    have hbelow := hi.below j _ hlt (List.getElem?_eq_getElem hj')
    exact absurd (hj.above j _ le_rfl (List.getElem?_eq_getElem hj')) (not_le.mpr hbelow)
  exact le_antisymm (hle hi hj) (hle hj hi)

theorem getElem?_addpart (h : Ascending parts) : (addpart parts p)[lowerBound parts p.partnum]? = some p := by
  have hs := @lowerBound_splits _ p.partnum h
  have hlen : (parts.take (lowerBound parts p.partnum)).length = lowerBound parts p.partnum :=
    List.length_take_of_le hs.le_length
  rw [addpart_eq h, List.getElem?_append_right hlen.le, hlen, Nat.sub_self]
  rfl

/-- A part stands before the parts of its number that were there. -/
theorem lowerBound_addpart (h : Ascending parts) : lowerBound (addpart parts p) p.partnum = lowerBound parts p.partnum := by
  have hs := @lowerBound_splits _ p.partnum h
  refine (lowerBound_splits (ascending_addpart h)).eq ⟨?_, fun j a hj ha => ?_, fun j a hj ha => ?_⟩
  · rw [(addpart_perm h).length_eq, List.length_cons]
    exact hs.le_length.trans (Nat.le_succ _)
  · unfold addpart at ha
    rw [List.getElem?_insertIdx_of_lt hj] at ha
    exact hs.below j a hj ha
  · exact (ascending_addpart h).getElem_le hj (getElem?_addpart h) ha

theorem removepart_addpart (h : Ascending parts) : removepart (addpart parts p) p.partnum = parts := by
  have hpart : part (addpart parts p) p.partnum = some p := by
    unfold part
    rw [lowerBound_addpart h, getElem?_addpart h]
    simp
  unfold removepart
  rw [hpart]
  dsimp only
  rw [lowerBound_addpart h]
  exact List.eraseIdx_insertIdx_self p

theorem modify_middle {g : NntpPart → NntpPart} {after : List NntpPart} : ∀ before : List NntpPart,
    (before ++ p :: after).modify before.length g = before ++ g p :: after
  | [] => rfl
  | a :: before => by simp [modify_middle before]

theorem modify_addpart (h : Ascending parts) {g : NntpPart → NntpPart} (hg : (g p).partnum = p.partnum) :
    (addpart parts p).modify (lowerBound parts p.partnum) g = addpart parts (g p) := by
  have hs := @lowerBound_splits _ p.partnum h
  have hlen : (parts.take (lowerBound parts p.partnum)).length = lowerBound parts p.partnum :=
    List.length_take_of_le hs.le_length
  have hmod := @modify_middle p g (parts.drop (lowerBound parts p.partnum)) (parts.take (lowerBound parts p.partnum))
  rw [hlen] at hmod
  rw [addpart_eq h, addpart_eq h, hg, hmod]

/-- A part above all others is added at the end. -/
theorem addpart_append (h : Increasing (parts ++ [p])) : addpart parts p = parts ++ [p] := by
  have hlt := (List.pairwise_append.mp h).2.2
  have hasc : Ascending parts := Increasing.ascending (List.pairwise_append.mp h).1
  have hend : Splits parts p.partnum parts.length := by
    refine ⟨le_rfl, fun j a _ ha => hlt a (List.mem_of_getElem? ha) p (by simp), fun j a hj ha => ?_⟩
    rw [List.getElem?_eq_none hj] at ha
    cases ha
  rw [addpart_eq hasc, (lowerBound_splits hasc).eq hend]
  simp

end NntpFileParts
end Nget

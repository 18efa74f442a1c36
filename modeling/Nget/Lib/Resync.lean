import Mathlib

/-! Units in a sequence with other data around them. `unit p` is the length of the unit that begins at `p`, where one does. A reader
    that takes the unit where it stands and goes on behind it, and elsewhere goes on at the next position, takes the units in
    `Units unit size`. -/

namespace Resync
variable {unit : Nat → Option Nat} {size : Nat}

/-- The positions from `p` on where a unit is taken. -/
inductive Units (unit : Nat → Option Nat) (size : Nat) : Nat → List Nat → Prop
  | stop {p : Nat} (h : size ≤ p) : Units unit size p []
  | skip {p : Nat} {ps : List Nat} (h : unit p = none) (rest : Units unit size (p + 1) ps) : Units unit size p ps
  | take {p length : Nat} {ps : List Nat} (h : unit p = some length) (rest : Units unit size (p + length) ps) :
    Units unit size p (p :: ps)

theorem Units.of_none {p : Nat} {ps : List Nat} (h : Units unit size p ps) (hp : unit p = none) :
    Units unit size (p + 1) ps := by
  cases h with
  | stop hstop => exact .stop (Nat.le_succ_of_le hstop)
  | skip _ hrest => exact hrest
  | take hunit _ => rw [hp] at hunit; cases hunit

theorem Units.of_unit {p length : Nat} {ps : List Nat} (h : Units unit size p ps) (hlt : p < size) (hp : unit p = some length) :
    ∃ qs, ps = p :: qs ∧ Units unit size (p + length) qs := by
  cases h with
  | stop hstop => exact absurd hlt (Nat.not_lt.mpr hstop)
  | skip hunit _ => rw [hp] at hunit; cases hunit
  | take hunit hrest =>
    obtain rfl := Option.some.inj (hp.symm.trans hunit)
    exact ⟨_, rfl, hrest⟩

/-- A stretch without units may be passed over at once. -/
theorem Units.of_stretch {p q : Nat} {ps : List Nat} (h : Units unit size p ps) (hpq : p ≤ q)
    (hnone : ∀ r, p ≤ r → r < q → unit r = none) : Units unit size q ps := by
  obtain ⟨n, rfl⟩ := Nat.exists_eq_add_of_le hpq
  clear hpq
  induction n with
  | zero => exact h
  | succ n ih =>
    refine (ih fun r hr hlt => hnone r hr (Nat.lt_succ_of_lt hlt)).of_none (hnone (p + n) (Nat.le_add_right p n) ?_)
    exact Nat.lt_succ_self _

theorem Units.mem {p : Nat} {ps : List Nat} (h : Units unit size p ps) {q : Nat} (hq : q ∈ ps) :
    p ≤ q ∧ ∃ length, unit q = some length := by
  induction h with
  | stop => cases hq
  | skip _ _ ih =>
    obtain ⟨hle, hunit⟩ := ih hq
    exact ⟨Nat.le_of_succ_le hle, hunit⟩
  | take hp _ ih =>
    rcases List.mem_cons.mp hq with rfl | hq
    · exact ⟨Nat.le_refl _, _, hp⟩
    · obtain ⟨hle, hunit⟩ := ih hq
      exact ⟨Nat.le_trans (Nat.le_add_right _ _) hle, hunit⟩

theorem Units.eq_nil {p : Nat} {ps : List Nat} (h : Units unit size p ps) (hnone : ∀ q, p ≤ q → unit q = none) : ps = [] := by
  refine List.eq_nil_iff_forall_not_mem.mpr fun q hq => ?_
  obtain ⟨hle, length, hunit⟩ := h.mem hq
  rw [hnone q hle] at hunit
  cases hunit

/-- No unit that is taken begins in another one. -/
theorem Units.disjoint {p : Nat} {ps : List Nat} (h : Units unit size p ps) :
    ps.Pairwise fun q r => ∀ length, unit q = some length → q + length ≤ r := by
  induction h with
  | stop => exact .nil
  | skip _ _ ih => exact ih
  | take hp hrest ih =>
    refine .cons (fun r hr length hlength => ?_) ih
    obtain rfl := Option.some.inj (hp.symm.trans hlength)
    exact (hrest.mem hr).1

/-- A unit is taken, or it begins in one that is. -/
theorem Units.covers {p : Nat} {ps : List Nat} (h : Units unit size p ps) (hin : ∀ q length, unit q = some length → q < size)
    {q length : Nat} (hpq : p ≤ q) (hq : unit q = some length) :
    ∃ r ∈ ps, ∃ n, unit r = some n ∧ r ≤ q ∧ q < r + n := by
  induction h with
  | stop hstop => exact absurd (hin q length hq) (Nat.not_lt.mpr (Nat.le_trans hstop hpq))
  | @skip p _ hnone _ ih =>
    refine ih (Nat.lt_of_le_of_ne hpq fun heq => ?_)
    rw [heq, hq] at hnone
    cases hnone
  | @take p n _ hp _ ih =>
    rcases Nat.lt_or_ge q (p + n) with hlt | hge
    · exact ⟨p, List.mem_cons_self, n, hp, hpq, hlt⟩
    · obtain ⟨r, hr, hrest⟩ := ih hge
      exact ⟨r, List.mem_cons_of_mem _ hr, hrest⟩

end Resync

import Mathlib

/-! A source whose record grows with time, and a follower that keeps a mark: it has seen all that happened before it. The
    follower asks for what happened from the mark on, and may then move the mark to a time that was read off the source's
    clock before it asked. -/

/-- The clock of a source, and what it has on record with the times that it happened at. -/
structure Feed (S ι : Type) where
  clock : S → ℕ
  record : S → Set (ℕ × ι)

namespace Feed
variable {S ι : Type} (F : Feed S ι)

/-- Time went on, and what is new on record happened since. What was on record may be gone. -/
structure Later (s t : S) : Prop where
  clock_le : F.clock s ≤ F.clock t
  since : ∀ x ∈ F.record t, x ∈ F.record s ∨ F.clock s ≤ x.1

/-- What the source has on record from before the mark is known. -/
structure UpTo (s : S) (mark : ℕ) (known : Set ι) : Prop where
  mark_le : mark ≤ F.clock s
  known : ∀ x ∈ F.record s, x.1 < mark → x.2 ∈ known

variable {F} {s t u : S} {mark mark' : ℕ} {known known' : Set ι}

theorem Later.refl (s : S) : F.Later s s := ⟨le_rfl, fun _ hx => Or.inl hx⟩

theorem Later.trans (h : F.Later s t) (h' : F.Later t u) : F.Later s u where
  clock_le := h.clock_le.trans h'.clock_le
  since x hx := by
    rcases h'.since x hx with hx | hx
    · exact h.since x hx
    · exact Or.inr (h.clock_le.trans hx)

/-- What happened before `s` is on record later only if it was on record then. -/
theorem Later.before (h : F.Later s t) {x : ℕ × ι} (hx : x ∈ F.record t) (hlt : x.1 < F.clock s) : x ∈ F.record s :=
  (h.since x hx).resolve_right (not_le.mpr hlt)

theorem UpTo.later (h : F.UpTo s mark known) (hl : F.Later s t) (hk : known ⊆ known') : F.UpTo t mark known' where
  mark_le := h.mark_le.trans hl.clock_le
  known x hx hlt := hk (h.known x (hl.before hx (hlt.trans_le h.mark_le)) hlt)

/-- The follower asks for all that is on record. -/
theorem UpTo.all (hmark : mark' ≤ F.clock s) (hseen : ∀ x ∈ F.record s, x.2 ∈ known) : F.UpTo s mark' known :=
  ⟨hmark, fun x hx _ => hseen x hx⟩

/-- The follower asks for what happened from its mark on. -/
theorem UpTo.advance (h : F.UpTo s mark known) (hl : F.Later s t) (hk : known ⊆ known')
    (hseen : ∀ x ∈ F.record t, mark ≤ x.1 → x.2 ∈ known') : ∀ x ∈ F.record t, x.2 ∈ known' := by
  intro x hx
  by_cases hlt : x.1 < mark
  · exact (h.later hl hk).known x hx hlt
  · exact hseen x hx (not_lt.mp hlt)

end Feed

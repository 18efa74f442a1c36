import Mathlib

/-! Words with opening and closing brackets, which weigh 1 and -1 among what weighs nothing. -/

namespace Nested
variable {α : Type} {w : α → Int} {a b : α} {l inner rest : List α}

/-- How many more brackets a word opens than it closes. -/
def net (w : α → Int) (l : List α) : Int := (l.map w).sum

/-- No bracket is closed before it is opened, and in the end none is open. -/
structure WellNested (w : α → Int) (l : List α) : Prop where
  sane : ∀ p, p <+: l → 0 ≤ net w p
  settled : net w l = 0

@[simp] theorem net_nil : net w [] = 0 := rfl

@[simp] theorem net_cons : net w (a :: l) = w a + net w l := List.sum_cons

@[simp] theorem net_append : net w (l ++ rest) = net w l + net w rest := by
  simp [net]

theorem wellNested_nil : WellNested w [] := ⟨fun p hp => by simp [List.prefix_nil.mp hp], rfl⟩

theorem prefix_append_cases {p : List α} (hp : p <+: l ++ rest) : p <+: l ∨ ∃ q, p = l ++ q ∧ q <+: rest := by
  rcases List.prefix_or_prefix_of_prefix hp (List.prefix_append l rest) with hl | ⟨q, rfl⟩
  · exact Or.inl hl
  · exact Or.inr ⟨q, rfl, (List.prefix_append_right_inj l).mp hp⟩

theorem WellNested.append (h : WellNested w l) (h' : WellNested w rest) : WellNested w (l ++ rest) := by
  refine ⟨fun p hp => ?_, by simp [h.settled, h'.settled]⟩
  rcases prefix_append_cases hp with hp | ⟨q, rfl, hq⟩
  · exact h.sane p hp
  · rw [net_append, h.settled, zero_add]
    exact h'.sane q hq

theorem wellNested_singleton (ha : w a = 0) : WellNested w [a] := by
  refine ⟨fun p hp => ?_, by simp [ha]⟩
  rcases List.prefix_cons_iff.mp hp with rfl | ⟨q, rfl, hq⟩
  · exact le_rfl
  · simp [List.prefix_nil.mp hq, ha]

theorem WellNested.enclosed (ha : w a = 1) (hb : w b = -1) (h : WellNested w inner) : WellNested w (a :: (inner ++ [b])) := by
  refine ⟨fun p hp => ?_, by simp [ha, hb, h.settled]⟩
  rcases List.prefix_cons_iff.mp hp with rfl | ⟨q, rfl, hq⟩
  · exact le_rfl
  · rw [net_cons, ha]
    rcases prefix_append_cases hq with hq | ⟨r, rfl, hr⟩
    · have := h.sane q hq
      omega
    · rcases List.prefix_cons_iff.mp hr with rfl | ⟨t, rfl, ht⟩
      · simp [h.settled]
      · simp [List.prefix_nil.mp ht, h.settled, hb]

/-- A bracket that is closed where none is open. -/
theorem WellNested.not_close (h : WellNested w inner) (hb : w b = -1) : ¬WellNested w (inner ++ b :: rest) := fun hall => by
  have := hall.sane (inner ++ [b]) ⟨rest, by simp⟩
  rw [net_append, h.settled, net_cons, net_nil, hb] at this
  omega

end Nested

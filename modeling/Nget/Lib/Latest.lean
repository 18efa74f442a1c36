import Mathlib

/-! Of the values that come one after the other for one key, the latest is kept: the one of the greatest rank, and the
    last that came of these. What is kept of one run of values and of another one is merged in the same way, and a
    merge with values that were merged before changes nothing. -/

namespace Latest
variable {α β : Type} [LinearOrder β] (rank : α → β)

/-- What is kept of `o` when `b` comes. -/
def keep (o : Option α) (b : α) : α :=
  match o with
  | none => b
  | some a => if rank b < rank a then a else b

/-- What is kept of `o` and of values that come in their order. -/
def latest (o : Option α) (l : List α) : Option α := l.foldl (fun o b => some (keep rank o b)) o

def merge (o : Option α) : Option α → Option α
  | none => o
  | some b => some (keep rank o b)

variable {rank} {o v w : Option α} {a b : α} {l : List α}

theorem keep_some : keep rank (some a) b = if rank b < rank a then a else b := rfl

@[simp] theorem merge_none : merge rank o none = o := rfl

@[simp] theorem none_merge : merge rank none v = v := by cases v <;> rfl

theorem merge_some : merge rank (some a) (some b) = if rank b < rank a then some a else some b := apply_ite some _ _ _

theorem merge_assoc : ∀ {o v w : Option α}, merge rank (merge rank o v) w = merge rank o (merge rank v w)
  | none, v, w => by rw [none_merge, none_merge]
  | some a, none, w => by rw [none_merge, merge_none]
  | some a, some b, none => rfl
  | some a, some b, some c => by
    simp only [merge_some]
    by_cases hab : rank b < rank a <;> by_cases hbc : rank c < rank b
    · simp only [hab, hbc, hbc.trans hab, merge_some, if_true]
    · simp only [hab, hbc, merge_some, if_true, if_false]
    · simp only [hab, hbc, merge_some, if_true, if_false]
    · have hac : ¬rank c < rank a := fun h => hbc (h.trans_le (not_lt.mp hab))
      simp only [hab, hbc, hac, merge_some, if_false]

@[simp] theorem merge_self : merge rank o o = o := by
  cases o with
  | none => rfl
  | some a => simp [merge_some]

/-- The values that come are merged as what is kept of them alone. -/
theorem latest_eq_merge : ∀ {l : List α} {o : Option α}, latest rank o l = merge rank o (latest rank none l)
  | [], _ => rfl
  | b :: l, o => by
    have hstep : ∀ o : Option α, latest rank o (b :: l) = latest rank (merge rank o (some b)) l := fun _ => rfl
    have ih : ∀ o : Option α, latest rank o l = merge rank o (latest rank none l) := fun _ => latest_eq_merge
    rw [hstep, hstep, ih (merge rank o (some b)), ih (merge rank none (some b)), none_merge]
    exact merge_assoc

/-- One of the two is what is kept. -/
theorem merge_eq_some (h : merge rank o v = some a) : o = some a ∨ v = some a := by
  rcases o with _ | b <;> rcases v with _ | c
  · exact Or.inl h
  · rw [none_merge] at h
    exact Or.inr h
  · exact Or.inl h
  · rw [merge_some] at h
    split at h
    · exact Or.inl h
    · exact Or.inr h

theorem isSome_merge : (merge rank o v).isSome = (o.isSome || v.isSome) := by
  rcases o with _ | b <;> rcases v with _ | c <;> simp [merge]

/-- A value that is kept in the end came, or was there. -/
theorem mem_of_latest : ∀ {l : List α}, latest rank none l = some a → a ∈ l
  | b :: l, h => by
    change latest rank (some b) l = some a at h
    rw [latest_eq_merge] at h
    rcases merge_eq_some h with h | h
    · exact Option.some.inj h ▸ List.mem_cons_self
    · exact List.mem_cons_of_mem _ (mem_of_latest h)

end Latest

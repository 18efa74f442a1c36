import Mathlib

/-! Computations with a state that an exception leaves as it is when it is thrown: what one comes to, part by part, and
    relations that every part of one keeps to, however it ends. -/

namespace Outcome
variable {ε σ α β : Type}

/-- The state in the end. -/
def left : EStateM.Result ε σ α → σ
  | .ok _ s => s
  | .error _ s => s

section
variable {x : EStateM ε σ α} {f : α → EStateM ε σ β} {s t : σ}

theorem bind_eq_ok {b : β} : (x >>= f) s = .ok b t ↔ ∃ a u, x s = .ok a u ∧ f a u = .ok b t := by
  change EStateM.bind x f s = _ ↔ _
  unfold EStateM.bind
  cases x s <;> simp

/-- The first two parts taken together. -/
theorem bind_bind_eq_ok {γ : Type} {y : EStateM ε σ γ} {g : γ → EStateM ε σ β} {b : β} :
    (x >>= fun _ => y >>= g) s = .ok b t ↔ ∃ c u, (x >>= fun _ => y) s = .ok c u ∧ g c u = .ok b t := by
  rw [← bind_assoc, bind_eq_ok]

theorem bind_of_ok {a : α} (h : x s = .ok a t) : (x >>= f) s = f a t := by
  change EStateM.bind x f s = _
  unfold EStateM.bind
  rw [h]

theorem bind_of_error {e : ε} (h : x s = .error e t) : (x >>= f) s = .error e t := by
  change EStateM.bind x f s = _
  unfold EStateM.bind
  rw [h]

end

/-! ### Relations -/

/-- Whatever state it starts in, the state that it leaves is in the relation to it. -/
def Within (R : σ → σ → Prop) (x : EStateM ε σ α) : Prop := ∀ s, R s (left (x s))

section
variable {R : σ → σ → Prop}

theorem Within.ok {x : EStateM ε σ α} (h : Within R x) {s t : σ} {a : α} (hx : x s = .ok a t) : R s t := by
  have hs := h s
  rwa [hx] at hs

theorem Within.error {x : EStateM ε σ α} (h : Within R x) {s t : σ} {e : ε} (hx : x s = .error e t) : R s t := by
  have hs := h s
  rwa [hx] at hs

theorem Within.mono {R' : σ → σ → Prop} {x : EStateM ε σ α} (h : Within R x) (himp : ∀ s t, R s t → R' s t) : Within R' x :=
  fun s => himp s _ (h s)

theorem Within.pure [Std.Refl R] (a : α) : Within R (Pure.pure a : EStateM ε σ α) := fun s => Std.Refl.refl s

theorem Within.get [Std.Refl R] : Within R (MonadState.get : EStateM ε σ σ) := fun s => Std.Refl.refl s

/-- The state at this point is known. -/
theorem Within.get_bind {g : σ → EStateM ε σ β} (h : ∀ s, R s (left (g s s))) : Within R (MonadState.get >>= g) := h

theorem Within.modify {f : σ → σ} (h : ∀ s, R s (f s)) : Within R (modify f : EStateM ε σ PUnit) := h

theorem Within.throw [Std.Refl R] (e : ε) : Within R (MonadExcept.throw e : EStateM ε σ α) := fun s => Std.Refl.refl s

theorem Within.bind [IsTrans σ R] {x : EStateM ε σ α} {f : α → EStateM ε σ β} (hx : Within R x) (hf : ∀ a, Within R (f a)) :
    Within R (x >>= f) := fun s => by
  cases h : x s with
  | ok a t =>
    rw [bind_of_ok h]
    exact IsTrans.trans _ _ _ (hx.ok h) (hf a t)
  | error e t =>
    rw [bind_of_error h]
    exact hx.error h

theorem Within.ite {c : Prop} [Decidable c] {x y : EStateM ε σ α} (hx : c → Within R x) (hy : ¬c → Within R y) :
    Within R (if c then x else y) := by
  split
  · exact hx ‹_›
  · exact hy ‹_›

end

/-! ### Conditions before and after -/

/-- A condition on what comes of a computation, and one on the state that an exception leaves. -/
def Post (Q : α → σ → Prop) (E : σ → Prop) : EStateM.Result ε σ α → Prop
  | .ok a s => Q a s
  | .error _ s => E s

/-- From a state with `P` the computation ends with `Q`, or is left with `E`. -/
def Triple (P : σ → Prop) (x : EStateM ε σ α) (Q : α → σ → Prop) (E : σ → Prop) : Prop := ∀ s, P s → Post Q E (x s)

section
variable {P P' : σ → Prop} {E : σ → Prop} {x : EStateM ε σ α} {f : α → EStateM ε σ β}

theorem Triple.ok {Q : α → σ → Prop} (h : Triple P x Q E) {s t : σ} {a : α} (hs : P s) (hx : x s = .ok a t) : Q a t := by
  have hpost := h s hs
  rwa [hx] at hpost

theorem Triple.error {Q : α → σ → Prop} (h : Triple P x Q E) {s t : σ} {e : ε} (hs : P s) (hx : x s = .error e t) : E t := by
  have hpost := h s hs
  rwa [hx] at hpost

theorem Triple.bind {Q : α → σ → Prop} {R : β → σ → Prop} (hx : Triple P x Q E) (hf : ∀ a, Triple (Q a) (f a) R E) :
    Triple P (x >>= f) R E := fun s hs => by
  cases h : x s with
  | ok a t =>
    rw [bind_of_ok h]
    exact hf a t (hx.ok hs h)
  | error e t =>
    rw [bind_of_error h]
    exact hx.error hs h

/-- The state at this point is given a name. -/
theorem Triple.get_bind {g : σ → EStateM ε σ β} {R : β → σ → Prop} (h : ∀ u, P u → Triple (· = u) (g u) R E) :
    Triple P (MonadState.get >>= g) R E := fun s hs => h s hs s rfl

/-- The state at this point is known, and its condition stays. -/
theorem Triple.get_keep {g : σ → EStateM ε σ β} {R : β → σ → Prop} (h : ∀ u, P u → Triple P (g u) R E) :
    Triple P (MonadState.get >>= g) R E := fun s hs => h s hs s hs

theorem Triple.pure {Q : α → σ → Prop} {a : α} (h : ∀ s, P s → Q a s) : Triple P (Pure.pure a : EStateM ε σ α) Q E := h

theorem Triple.throw {Q : α → σ → Prop} {e : ε} (h : ∀ s, P s → E s) :
    Triple P (MonadExcept.throw e : EStateM ε σ α) Q E := h

theorem Triple.modify {Q : PUnit → σ → Prop} {f : σ → σ} (h : ∀ s, P s → Q ⟨⟩ (f s)) :
    Triple P (modify f : EStateM ε σ PUnit) Q E := h

theorem Triple.ite {Q : α → σ → Prop} {c : Prop} [Decidable c] {y : EStateM ε σ α} (hx : c → Triple P x Q E)
    (hy : ¬c → Triple P y Q E) : Triple P (if c then x else y) Q E := by
  split
  · exact hx ‹_›
  · exact hy ‹_›

theorem Triple.mono {Q Q' : α → σ → Prop} (h : Triple P x Q E) (hP : ∀ s, P' s → P s) (hQ : ∀ a s, Q a s → Q' a s) :
    Triple P' x Q' E := fun s hs => by
  cases hx : x s with
  | ok a t => exact hQ a t (h.ok (hP s hs) hx)
  | error e t => exact h.error (hP s hs) hx

/-- Each step of a relation keeps the condition, and so does a computation that keeps to the relation. -/
theorem Within.triple {R : σ → σ → Prop} (h : Within R x) (hP : ∀ s t, P s → R s t → P t) (hE : ∀ s, P s → E s) :
    Triple P x (fun _ => P) E := fun s hs => by
  have hR := h s
  cases hx : x s with
  | ok a t =>
    rw [hx] at hR
    exact hP s t hs hR
  | error e t =>
    rw [hx] at hR
    exact hE t (hP s t hs hR)

end
end Outcome

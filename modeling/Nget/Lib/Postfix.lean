import Mathlib.Data.List.Basic

/-! Expressions in postfix order: operands, and binary connectives behind their two arguments. A machine that
    keeps the values of what it has read on a stack ends with one value exactly when it has read one expression. -/

namespace Postfix
variable {α β γ : Type}

/-- Binary connectives `b` over operands `a`. -/
inductive Expr (α β : Type) where
  | operand (a : α)
  | connective (b : β) (l r : Expr α β)

/-- The expression in postfix order. -/
def Expr.symbols : Expr α β → List (α ⊕ β)
  | operand a => [.inl a]
  | connective b l r => l.symbols ++ (r.symbols ++ [.inr b])

/-- The value of the expression. -/
def Expr.value (f : α → γ) (g : β → γ → γ → γ) : Expr α β → γ
  | operand a => f a
  | connective b l r => g b (l.value f g) (r.value f g)

/-- An operand is pushed; a connective takes its arguments from the stack, the second one first. -/
def run (f : α → γ) (g : β → γ → γ → γ) : List γ → List (α ⊕ β) → Option (List γ)
  | st, [] => some st
  | st, .inl a :: s => run f g (f a :: st) s
  | y :: x :: st, .inr b :: s => run f g (g b x y :: st) s
  | _, .inr _ :: _ => none

variable {f : α → γ} {g : β → γ → γ → γ} {s : List (α ⊕ β)} {st : List γ}

theorem run_symbols (e : Expr α β) (s : List (α ⊕ β)) (st : List γ) :
    run f g st (e.symbols ++ s) = run f g (e.value f g :: st) s := by
  induction e generalizing s st with
  | operand a => rfl
  | connective b l r ihl ihr =>
    rw [Expr.symbols, List.append_assoc, List.append_assoc, ihl, ihr]
    rfl

/-- The stack always holds the values of expressions that together read as what was read. -/
theorem run_eq_some : ∀ {s : List (α ⊕ β)} {es : List (Expr α β)} {st : List γ}, run f g (es.map (·.value f g)) s = some st →
    ∃ es' : List (Expr α β), st = es'.map (·.value f g) ∧ es'.reverse.flatMap (·.symbols) = es.reverse.flatMap (·.symbols) ++ s
  | [], es, _, h => ⟨es, (Option.some.inj h).symm, (List.append_nil _).symm⟩
  | .inl a :: s, es, st, h => by
    obtain ⟨es', hst, hread⟩ := @run_eq_some s (.operand a :: es) st h
    refine ⟨es', hst, hread.trans ?_⟩
    simp [Expr.symbols]
  | .inr b :: s, [], _, h => by cases h
  | .inr b :: s, [_], _, h => by cases h
  | .inr b :: s, r :: l :: es, st, h => by
    obtain ⟨es', hst, hread⟩ := @run_eq_some s (.connective b l r :: es) st h
    refine ⟨es', hst, hread.trans ?_⟩
    simp [Expr.symbols]

/-- One value is left exactly when what was read is one expression, and it is its value. -/
theorem run_singleton_iff {c : γ} : run f g [] s = some [c] ↔ ∃ e : Expr α β, e.symbols = s ∧ e.value f g = c := by
  constructor
  · intro h
    obtain ⟨es, hst, hread⟩ := @run_eq_some α β γ f g s [] [c] h
    obtain ⟨e, rfl⟩ := List.length_eq_one_iff.mp (by simpa using congrArg List.length hst.symm)
    exact ⟨e, by simpa using hread, by simpa using hst.symm⟩
  · rintro ⟨e, rfl, rfl⟩
    have := @run_symbols α β γ f g e [] []
    rwa [List.append_nil] at this

end Postfix

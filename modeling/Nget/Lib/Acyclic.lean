import Mathlib.Data.Fintype.Card
import Mathlib.Data.Set.Finite.Basic
import Mathlib.Logic.Relation

/-! Where a relation leads to. What has finitely many steps in all is followed to an end from `a` exactly if
    nothing that is reached from `a` leads back to itself. -/

namespace Acyclic
open Relation

variable {α : Type} {r : α → α → Prop} {a b : α}

/-- Every way that leads on from `a` comes to an end. -/
def Ends (r : α → α → Prop) (a : α) : Prop := Acc (fun y x => r x y) a

theorem ends_of_next (h : ∀ b, r a b → Ends r b) : Ends r a := Acc.intro a h

theorem Ends.next (h : Ends r a) (hab : r a b) : Ends r b := h.inv hab

theorem Ends.reach (h : Ends r a) (hab : ReflTransGen r a b) : Ends r b := by
  induction hab with
  | refl => exact h
  | tail _ hbc ih => exact ih.next hbc

/-- Nothing that leads back to itself comes to an end. -/
theorem Ends.not_cycle (h : Ends r a) : ¬TransGen r a a := by
  induction h with
  | intro a _ ih =>
    intro haa
    -- The first step of the cycle is on the same cycle.
    obtain ⟨b, hab, hba⟩ := TransGen.head'_iff.mp haa
    exact ih b hab (TransGen.tail' hba hab)

/-- What has no step ends at once. -/
theorem ends_of_final (h : ∀ b, ¬r a b) : Ends r a := ends_of_next fun b hab => absurd hab (h b)

theorem ends_of_no_cycle {s : Set α} (hs : s.Finite) (hr : ∀ x y, r x y → x ∈ s)
    (h : ∀ b, ReflTransGen r a b → ¬TransGen r b b) : Ends r a := by
  let t : Set α := {b | ReflTransGen r a b ∧ b ∈ s}
  have : Finite t := hs.subset fun b hb => hb.2
  have htrans : IsTrans t fun y x => TransGen r x.1 y.1 := ⟨fun _ _ _ hyx hzy => hzy.trans hyx⟩
  have hirrefl : Std.Irrefl (α := t) fun y x => TransGen r x.1 y.1 := ⟨fun x => h x.1 x.2.1⟩
  have hwf := Finite.wellFounded_of_trans_of_irrefl (α := t) fun y x => TransGen r x.1 y.1
  have hall : ∀ x : t, Ends r x.1 := fun x => hwf.induction x fun x ih => ends_of_next fun y hxy => by
    by_cases hy : y ∈ s
    · exact ih ⟨y, x.2.1.tail hxy, hy⟩ (TransGen.single hxy)
    · exact ends_of_final fun z hyz => hy (hr y z hyz)
  by_cases ha : a ∈ s
  · exact hall ⟨a, ReflTransGen.refl, ha⟩
  · exact ends_of_final fun b hab => ha (hr a b hab)

theorem ends_iff {s : Set α} (hs : s.Finite) (hr : ∀ x y, r x y → x ∈ s) :
    Ends r a ↔ ∀ b, ReflTransGen r a b → ¬TransGen r b b :=
  ⟨fun h _ hab => (h.reach hab).not_cycle, ends_of_no_cycle hs hr⟩

end Acyclic

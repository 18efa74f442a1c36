import Mathlib

/-! Checksums of a window that moves along a text. A checksum is a fold whose step is additive in the state and the symbol
    taken together; what an old symbol has left in it can then be taken out again, and what a difference of two texts makes of
    it does not depend on the rest of the text. -/

namespace Rolling

/-- The step is additive in the state and the symbol taken together. -/
def Additive {S B : Type} [AddCommGroup S] [AddCommGroup B] (step : S → B → S) : Prop :=
  ∀ s t a b, step (s + t) (a + b) = step s a + step t b

section
variable {S B : Type} [AddCommGroup S] [AddCommGroup B] {step : S → B → S}

theorem Additive.zero (h : Additive step) : step 0 0 = 0 := by
  have hadd := h 0 0 0 0
  simp only [add_zero] at hadd
  exact left_eq_add.mp hadd

theorem Additive.foldl_zipWith (h : Additive step) : ∀ {as bs : List B} {s t : S}, as.length = bs.length →
    (List.zipWith (· + ·) as bs).foldl step (s + t) = as.foldl step s + bs.foldl step t
  | [], [], _, _, _ => rfl
  | a :: as, b :: bs, s, t, hlen => by
    simp only [List.zipWith_cons_cons, List.foldl_cons]
    rw [h s t a b]
    exact h.foldl_zipWith (Nat.succ.inj hlen)

theorem zipWith_zeros : ∀ as : List B, List.zipWith (· + ·) as (List.replicate as.length 0) = as
  | [] => rfl
  | a :: as => by
    rw [List.length_cons, List.replicate_succ, List.zipWith_cons_cons, zipWith_zeros as, add_zero]

/-- What the state adds to the checksum depends on the length of the text alone. -/
theorem Additive.foldl_eq (h : Additive step) (s : S) (as : List B) :
    as.foldl step s = as.foldl step 0 + (List.replicate as.length 0).foldl step s := by
  have hzip := h.foldl_zipWith (s := 0) (t := s) (List.length_replicate (n := as.length) (a := (0 : B))).symm
  rwa [zipWith_zeros, zero_add] at hzip

/-- The window moves by one symbol. -/
theorem Additive.slide (h : Additive step) (old new : B) (mid : List B) :
    (mid ++ [new]).foldl step 0 =
      step ((old :: mid).foldl step 0) new - (old :: List.replicate (mid.length + 1) 0).foldl step 0 := by
  have hfold := h.foldl_eq (step 0 old) (mid ++ [new])
  rw [List.length_append, List.length_singleton, List.foldl_append] at hfold
  exact eq_sub_of_add_eq hfold.symm

/-- The window moves by one symbol, when the checksum starts in a state of its own and a constant is added in the end: the mask
    takes both away. -/
theorem Additive.slide_masked (h : Additive step) (start c : S) (old new : B) (mid : List B) :
    c + (mid ++ [new]).foldl step start =
      (c + (List.replicate (mid.length + 1) 0).foldl step start) +
        (step ((c + (old :: mid).foldl step start) - (c + (List.replicate (mid.length + 1) 0).foldl step start)) new -
          (old :: List.replicate (mid.length + 1) 0).foldl step 0) := by
  have hold : (c + (old :: mid).foldl step start) - (c + (List.replicate (mid.length + 1) 0).foldl step start) =
      (old :: mid).foldl step 0 := by
    rw [h.foldl_eq start (old :: mid), List.length_cons]
    abel
  rw [hold, ← h.slide old new mid, h.foldl_eq start (mid ++ [new]), List.length_append, List.length_singleton]
  abel

/-- When no state but zero is moved to zero, two states stay apart along a text. -/
theorem Additive.foldl_ne (h : Additive step) (hinj : ∀ s, step s 0 = 0 → s = 0) :
    ∀ {as : List B} {s t : S}, s ≠ t → as.foldl step s ≠ as.foldl step t
  | [], _, _, hne => hne
  | a :: as, s, t, hne => by
    change as.foldl step (step s a) ≠ as.foldl step (step t a)
    refine h.foldl_ne hinj fun heq => hne ?_
    have hsub : step (s - t) 0 = 0 := by
      have hadd := h (s - t) t 0 a
      rw [sub_add_cancel, zero_add, heq] at hadd
      exact right_eq_add.mp hadd
    exact sub_eq_zero.mp (hinj _ hsub)

end

/-! ### Words -/

/-- The laws of exclusive or. -/
class LawfulXor (α : Type) [XorOp α] [Zero α] : Prop where
  assoc : ∀ a b c : α, a ^^^ b ^^^ c = a ^^^ (b ^^^ c)
  comm : ∀ a b : α, a ^^^ b = b ^^^ a
  xor_zero : ∀ a : α, a ^^^ 0 = a
  self : ∀ a : α, a ^^^ a = 0

instance : LawfulXor UInt8 := ⟨UInt8.xor_assoc, UInt8.xor_comm, fun _ => UInt8.xor_zero, fun _ => UInt8.xor_self⟩

instance : LawfulXor UInt32 := ⟨UInt32.xor_assoc, UInt32.xor_comm, fun _ => UInt32.xor_zero, fun _ => UInt32.xor_self⟩

/-- Words whose sum is exclusive or. -/
def Parity (α : Type) : Type := α

section
variable {α : Type} [XorOp α] [Zero α]

instance : Add (Parity α) := ⟨(XorOp.xor : α → α → α)⟩

instance : Zero (Parity α) := ⟨(0 : α)⟩

instance : Neg (Parity α) := ⟨id⟩

instance [LawfulXor α] : AddCommGroup (Parity α) where
  add_assoc := (LawfulXor.assoc : ∀ a b c : α, a ^^^ b ^^^ c = a ^^^ (b ^^^ c))
  add_comm := (LawfulXor.comm : ∀ a b : α, a ^^^ b = b ^^^ a)
  add_zero := (LawfulXor.xor_zero : ∀ a : α, a ^^^ 0 = a)
  zero_add a := ((LawfulXor.comm : ∀ a b : α, a ^^^ b = b ^^^ a) 0 a).trans ((LawfulXor.xor_zero : ∀ a : α, a ^^^ 0 = a) a)
  neg_add_cancel := (LawfulXor.self : ∀ a : α, a ^^^ a = 0)
  nsmul := nsmulRec
  zsmul := zsmulRec

theorem Parity.sub_eq_add [LawfulXor α] (a b : Parity α) : a - b = a + b := sub_eq_add_neg a b

end

end Rolling

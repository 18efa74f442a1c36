import Mathlib.Data.List.Forall2
import Mathlib.Data.List.Sort

/-! Lists in the strict order of a key. Two of them with the same keys have entry for entry the same key. A list that
    is kept in the order of a relation takes a new entry behind the entries that it is not below. -/

namespace SortedList
variable {α β κ : Type} {key : α → κ} {key' : β → κ} {R : α → β → Prop}

theorem forall₂_of_map_eq : ∀ {l : List α} {l' : List β}, l.map key = l'.map key' →
    (∀ a ∈ l, ∀ b ∈ l', key a = key' b → R a b) → List.Forall₂ R l l'
  | [], [], _, _ => List.Forall₂.nil
  | a :: l, b :: l', h, hR => by
    obtain ⟨hhead, htail⟩ := List.cons_eq_cons.mp h
    refine List.Forall₂.cons (hR a List.mem_cons_self b List.mem_cons_self hhead) (forall₂_of_map_eq htail ?_)
    exact fun a ha b hb => hR a (List.mem_cons_of_mem _ ha) b (List.mem_cons_of_mem _ hb)

variable [LinearOrder κ]

/-- What relates entries of equal key relates the lists, when the same keys occur. -/
theorem forall₂_of_keys {l : List α} {l' : List β} (hl : l.Pairwise fun a b => key a < key b)
    (hl' : l'.Pairwise fun a b => key' a < key' b) (hkeys : ∀ k, (∃ a ∈ l, key a = k) ↔ ∃ b ∈ l', key' b = k)
    (hR : ∀ a ∈ l, ∀ b ∈ l', key a = key' b → R a b) : List.Forall₂ R l l' := by
  have hmap : (l.map key).Pairwise (· < ·) := List.pairwise_map.mpr hl
  have hmap' : (l'.map key').Pairwise (· < ·) := List.pairwise_map.mpr hl'
  refine forall₂_of_map_eq (hmap.eq_of_mem_iff hmap' fun k => ?_) hR
  rw [List.mem_map, List.mem_map]
  exact hkeys k

/-- Entries of one key are one entry. -/
theorem eq_of_key {l : List α} (hl : l.Pairwise fun a b => key a < key b) {a b : α} (ha : a ∈ l) (hb : b ∈ l)
    (hab : key a = key b) : a = b := by
  have hnodup : (l.map key).Nodup := List.pairwise_map.mpr (hl.imp fun h => h.ne)
  exact List.inj_on_of_nodup_map hnodup ha hb hab

/-! ### Insertion -/

/-- `e` put before the first entry that it is below. -/
def insertUpper (lt : α → α → Bool) (e : α) : List α → List α
  | [] => [e]
  | a :: l => if lt e a then e :: a :: l else a :: insertUpper lt e l

theorem insertUpper_perm {lt : α → α → Bool} {e : α} : ∀ {l : List α}, (insertUpper lt e l).Perm (e :: l)
  | [] => List.Perm.refl _
  | a :: l => by
    unfold insertUpper
    split
    · exact List.Perm.refl _
    · exact (insertUpper_perm.cons a).trans (List.Perm.swap e a l)

theorem mem_insertUpper {lt : α → α → Bool} {e x : α} {l : List α} : x ∈ insertUpper lt e l ↔ x = e ∨ x ∈ l :=
  insertUpper_perm.mem_iff.trans List.mem_cons

theorem pairwise_insertUpper {R : α → α → Prop} [IsTrans α R] {lt : α → α → Bool} {e : α} (hlt : ∀ a, lt e a = true → R e a)
    (hge : ∀ a, lt e a = false → R a e) : ∀ {l : List α}, l.Pairwise R → (insertUpper lt e l).Pairwise R
  | [], _ => List.pairwise_singleton R e
  | a :: l, h => by
    obtain ⟨ha, hl⟩ := List.pairwise_cons.mp h
    unfold insertUpper
    split
    · next hea =>
      refine List.pairwise_cons.mpr ⟨fun b hb => ?_, h⟩
      rcases List.mem_cons.mp hb with rfl | hb
      · exact hlt b hea
      · exact Trans.trans (hlt a hea) (ha b hb)
    · next hea =>
      refine List.pairwise_cons.mpr ⟨fun b hb => ?_, pairwise_insertUpper hlt hge hl⟩
      rcases mem_insertUpper.mp hb with rfl | hb
      · exact hge a (Bool.eq_false_iff.mpr hea)
      · exact ha b hb

end SortedList

import Mathlib.Data.List.Forall2
import Mathlib.Data.List.Infix
import Mathlib.Data.Char

/-! Wildmat patterns as RFC 2980 has them: `*`, `?`, sets of characters and of ranges, with `^` behind the bracket for
    all others, and `\` in front of a character that stands for itself. A pattern matches the whole of a string. -/

namespace Wildmat

inductive Item where
  | star
  | any
  | char (c : Char)
  /-- The characters of the ranges, or the others if `neg`. -/
  | set (neg : Bool) (ranges : List (Char × Char))
deriving DecidableEq

/-- The characters that an item takes one of. -/
def Item.takes : Item → Char → Bool
  | star, _ => false
  | any, _ => true
  | char c, d => c = d
  | set neg ranges, d => ranges.any (fun r => r.1 ≤ d && d ≤ r.2) != neg

mutual
/-- The items of a pattern. -/
def parse : List Char → Option (List Item)
  | [] => some []
  | '*' :: rest => (parse rest).map (.star :: ·)
  | '?' :: rest => (parse rest).map (.any :: ·)
  | ['\\'] => none
  | '\\' :: c :: rest => (parse rest).map (.char c :: ·)
  | '[' :: '^' :: c :: rest => parseSet true [(c, c)] c rest
  | '[' :: c :: rest => if c = '^' then none else parseSet false [(c, c)] c rest
  | ['['] => none
  | c :: rest => (parse rest).map (.char c :: ·)

/-- The rest of a set. The first character stands for itself, be it `]` or `-`, and so does `-` at the end. -/
def parseSet (neg : Bool) (ranges : List (Char × Char)) (last : Char) : List Char → Option (List Item)
  | [] => none
  | ']' :: rest => (parse rest).map (.set neg ranges :: ·)
  | '-' :: ']' :: rest => (parse rest).map (.set neg (ranges ++ [('-', '-')]) :: ·)
  | '-' :: c :: rest => parseSet neg (ranges ++ [(last, c)]) c rest
  | c :: rest => parseSet neg (ranges ++ [(c, c)]) c rest
end

/-- The items match the string. -/
def matchItems : List Item → List Char → Bool
  | [], s => s.isEmpty
  | .star :: items, s => s.tails.any (matchItems items)
  | _ :: _, [] => false
  | item :: items, c :: s => item.takes c && matchItems items s

/-- The string matches the pattern. -/
def wildmat (pattern s : List Char) : Bool := ((parse pattern).map (matchItems · s)).getD false

example : wildmat "[0-9a-zA-Z]*b??".toList "x.ebay".toList = true ∧ wildmat "[^]-]".toList "]".toList = false := by
  decide +kernel

variable {item : Item} {items : List Item} {c : Char} {s : List Char}

theorem matchItems_star : matchItems (.star :: items) s = true ↔ ∃ m n, s = m ++ n ∧ matchItems items n = true := by
  rw [matchItems, List.any_eq_true]
  constructor
  · rintro ⟨n, hn, h⟩
    obtain ⟨m, rfl⟩ := List.mem_tails n s |>.1 hn
    exact ⟨m, n, rfl, h⟩
  · rintro ⟨m, n, rfl, h⟩
    exact ⟨n, (List.mem_tails _ _).2 (List.suffix_append m n), h⟩

theorem matchItems_cons (hitem : item ≠ .star) :
    matchItems (item :: items) s = true ↔ ∃ c n, s = c :: n ∧ item.takes c = true ∧ matchItems items n = true := by
  cases s with
  | nil => cases item <;> simp_all [matchItems]
  | cons c s => cases item <;> simp_all [matchItems]

/-- The items that take one character each. -/
def ones (items : List Item) : List Item := items.filter (· ≠ .star)

/-- A string that matches has a character for each item that takes one, and if it has no others then in their order. -/
theorem ones_of_matchItems (h : matchItems items s = true) :
    (ones items).length ≤ s.length ∧
      (s.length ≤ (ones items).length → List.Forall₂ (fun item c => item.takes c = true) (ones items) s) := by
  induction items generalizing s with
  | nil =>
    obtain rfl := List.isEmpty_iff.1 h
    exact ⟨Nat.le_refl _, fun _ => .nil⟩
  | cons item items ih =>
    by_cases hitem : item = .star
    · subst hitem
      obtain ⟨m, n, rfl, hn⟩ := matchItems_star.1 h
      obtain ⟨hle, hall⟩ := ih hn
      simp only [ones, List.filter_cons, List.length_append, ne_eq, not_true_eq_false, decide_false, Bool.false_eq_true,
        if_false] at *
      refine ⟨by omega, fun hlen => ?_⟩
      obtain rfl : m = [] := List.length_eq_zero_iff.1 (by omega)
      exact hall (by simpa using hlen)
    · obtain ⟨c, n, rfl, hc, hn⟩ := (matchItems_cons hitem).1 h
      obtain ⟨hle, hall⟩ := ih hn
      have hones : ones (item :: items) = item :: ones items := List.filter_cons_of_pos (decide_eq_true hitem)
      rw [hones, List.length_cons, List.length_cons]
      exact ⟨Nat.succ_le_succ hle, fun hlen => .cons hc (hall (Nat.le_of_succ_le_succ hlen))⟩

end Wildmat

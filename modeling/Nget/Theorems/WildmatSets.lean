import Mathlib
import Nget.Lib.Ere
import Nget.Lib.Wildmat
import Nget.Regex2Wildmat

/-! The sets of a converted expression. Without regard to case each letter is written in both cases, also the ends of a
    range: the range is then from the upper case of the one to the lower case of the other. -/

namespace Nget
open Ere

variable {ignorecase first neg : Bool} {c d last : Char} {rest wildmat repat : Text} {loc : Ere.Locale} {es : List Element}
  {e : Element} {ranges : List (Char × Char)} {pos : Nat} {nc : Char}

/-- The letters that the search takes for one. -/
def folded (ignorecase : Bool) (c : Char) : Char := if ignorecase then c.toLower else c

def bothCases (ignorecase : Bool) (c : Char) : Text := if ignorecase && c.isAlpha then [c.toLower, c.toUpper] else [c]

def firstCase (ignorecase : Bool) (c : Char) : Char := if ignorecase && c.isAlpha then c.toLower else c

def lastCase (ignorecase : Bool) (c : Char) : Char := if ignorecase && c.isAlpha then c.toUpper else c

/-- A letter is in one of the two cases. -/
theorem eq_case_of_isAlpha (hd : d.isAlpha = true) : d = d.toLower ∨ d = d.toUpper := by
  rcases (Bool.or_eq_true _ _).mp hd with hd | hd
  · exact .inr (Char.toUpper_eq_of_not_isLower (Char.not_isLower_of_isUpper hd)).symm
  · exact .inl (Char.toLower_eq_of_not_isUpper (Char.not_isUpper_of_isLower hd)).symm

theorem toLower_of_not_isAlpha (hc : ¬ c.isAlpha = true) : c.toLower = c :=
  Char.toLower_eq_of_not_isUpper fun hu => hc (by simp [Char.isAlpha, hu])

theorem folded_eq_iff : folded ignorecase c = folded ignorecase d ↔ d ∈ bothCases ignorecase c := by
  unfold folded bothCases
  cases ignorecase with
  | false => simp [eq_comm]
  | true =>
    have halpha : c.toLower = d.toLower → c.isAlpha = d.isAlpha := fun h => by
      rw [← Char.isAlpha_toLower_eq_isAlpha, h, Char.isAlpha_toLower_eq_isAlpha]
    by_cases hc : c.isAlpha = true
    · simp only [if_true, hc, Bool.and_self, List.mem_cons, List.not_mem_nil, or_false]
      constructor
      · intro h
        rcases eq_case_of_isAlpha (halpha h ▸ hc) with hd | hd
        · exact .inl (hd.trans h.symm)
        · exact .inr (by rw [hd, ← Char.toUpper_toLower_eq_toUpper, ← h, Char.toUpper_toLower_eq_toUpper])
      · rintro (rfl | rfl)
        · exact (Char.toLower_toLower_eq_toLower c).symm
        · exact (Char.toLower_toUpper_eq_toLower c).symm
    · simp only [if_true, hc, Bool.and_false, Bool.false_eq_true, if_false, List.mem_singleton]
      constructor
      · intro h
        rw [← toLower_of_not_isAlpha hc, h, toLower_of_not_isAlpha (halpha h ▸ hc)]
      · rintro rfl
        rfl

/-- What is written for a character is one that is not a letter only if it is that one. -/
theorem mem_bothCases (hd : d.isAlpha = false) : d ∈ bothCases ignorecase c ↔ d = c := by
  unfold bothCases
  split
  · next h =>
    have hc : c.isAlpha = true := (Bool.and_eq_true _ _).mp h |>.2
    simp only [List.mem_cons, List.not_mem_nil, or_false]
    constructor
    · rintro (rfl | rfl)
      · rw [Char.isAlpha_toLower_eq_isAlpha, hc] at hd
        cases hd
      · rw [Char.isAlpha_toUpper_eq_isAlpha, hc] at hd
        cases hd
    · rintro rfl
      rw [hc] at hd
      cases hd
  · exact List.mem_singleton

/-- What is written behind the first case. -/
def moreCases (ignorecase : Bool) (c : Char) : Text := if ignorecase && c.isAlpha then [c.toUpper] else []

theorem bothCases_eq : bothCases ignorecase c = firstCase ignorecase c :: moreCases ignorecase c := by
  unfold bothCases firstCase moreCases
  split <;> rfl

theorem firstCase_mem : firstCase ignorecase c ∈ bothCases ignorecase c := by
  rw [bothCases_eq]
  exact List.mem_cons_self

theorem firstCase_ne (hd : d.isAlpha = false) (hc : c ≠ d) : firstCase ignorecase c ≠ d := fun h =>
  hc ((mem_bothCases hd).1 (h ▸ firstCase_mem)).symm

/-! ### What is written -/

/-- An element that has no names. -/
def Plain : Element → Prop
  | .point (.char _) => True
  | .range (.char _) (.char _) => True
  | _ => False

theorem plain_range {lo hi : Point} (h : Plain (.range lo hi)) : ∃ c d, lo = .char c ∧ hi = .char d := by
  cases lo with
  | char c =>
    cases hi with
    | char d => exact ⟨c, d, rfl, rfl⟩
    | coll => exact h.elim
  | coll => exact h.elim

def writtenElement (ignorecase : Bool) (e : Element) : Text :=
  match e with
  | .point (.char c) => bothCases ignorecase c
  | .range (.char lo) (.char hi) => bothCases ignorecase lo ++ '-' :: bothCases ignorecase hi
  | _ => []

theorem regex2wildmatSet_char (hclose : c = ']' → first = true) :
    regex2wildmatSet repat ignorecase first nc (c :: rest) pos wildmat =
      regex2wildmatSet repat ignorecase false c rest (pos + 1) (wildmat ++ bothCases ignorecase c) := by
  rw [regex2wildmatSet, if_neg (by simpa using hclose)]
  unfold bothCases
  split <;> rfl

theorem regex2wildmatSet_close :
    regex2wildmatSet repat ignorecase false nc (']' :: rest) pos wildmat =
      regex2wildmatLoop repat ignorecase rest (pos + 1) (wildmat ++ ']' :: atEnd rest) := by
  rw [regex2wildmatSet, if_pos (by decide)]

theorem elementsText_char : elementsText (.point (.char c) :: es) = c :: elementsText es := rfl

theorem elementsText_range {lo hi : Char} :
    elementsText (.range (.char lo) (.char hi) :: es) = lo :: '-' :: hi :: elementsText es := rfl

/-- A set with no names is copied, with its letters in both cases, unless a `]` that is its first character is not the
    first one for the loop. -/
theorem regex2wildmatSet_elements {listed : Bool} (hes : Listed loc listed es) (hplain : ∀ e ∈ es, Plain e)
    (hclosed : first = false → listed = true → (elementsText es).head? ≠ some ']') (hne : first = true → es ≠ []) :
    regex2wildmatSet repat ignorecase first nc (elementsText es ++ ']' :: rest) pos wildmat =
      regex2wildmatLoop repat ignorecase rest (pos + (elementsText es).length + 1)
        (wildmat ++ (es.flatMap (writtenElement ignorecase) ++ ']' :: atEnd rest)) := by
  induction hes generalizing pos wildmat nc first with
  | nil =>
    cases first with
    | false => exact regex2wildmatSet_close
    | true => exact absurd rfl (hne rfl)
  | @char listed c es hclose _ _ _ ih =>
    have hclose' : c = ']' → first = true := fun h =>
      Bool.of_not_eq_false fun hfirst => hclosed hfirst (hclose h) (by rw [h]; rfl)
    rw [elementsText_char, List.cons_append, regex2wildmatSet_char hclose',
      ih (fun e he => hplain e (List.mem_cons_of_mem _ he)) (by simp) (by simp)]
    simp only [List.length_cons, List.flatMap_cons, writtenElement, List.append_assoc]
    congr 1
    omega
  | @range listed lo hi _ _ es _ _ _ hclose _ hend _ _ ih =>
    obtain ⟨lo, hi, rfl, rfl⟩ := plain_range (hplain _ List.mem_cons_self)
    have hclose' : lo = ']' → first = true := fun h =>
      Bool.of_not_eq_false fun hfirst => hclosed hfirst (hclose (by rw [h])) (by rw [h]; rfl)
    have hdash' : bothCases ignorecase '-' = ['-'] := by cases ignorecase <;> rfl
    simp only [elementsText_range, List.cons_append]
    rw [regex2wildmatSet_char hclose', regex2wildmatSet_char (by decide), regex2wildmatSet_char (by simpa using hend),
      ih (fun e he => hplain e (List.mem_cons_of_mem _ he)) (by simp) (by simp)]
    simp only [List.length_cons, List.flatMap_cons, writtenElement, hdash', List.append_assoc, List.cons_append,
      List.nil_append]
    congr 1
    omega
  | coll | cls | equiv => exact absurd (hplain _ List.mem_cons_self) id

/-! ### What is read -/

/-- The ranges that are read for an element. -/
def writtenRanges (ignorecase : Bool) (e : Element) : List (Char × Char) :=
  match e with
  | .point (.char c) => (bothCases ignorecase c).map fun c => (c, c)
  | .range (.char lo) (.char hi) =>
    (bothCases ignorecase lo).map (fun c => (c, c)) ++ (lastCase ignorecase lo, firstCase ignorecase hi) ::
      (moreCases ignorecase hi).map fun c => (c, c)
  | _ => []

theorem parseSet_char (hc : c ≠ ']') (hdash : c ≠ '-') :
    Wildmat.parseSet neg ranges last (c :: rest) = Wildmat.parseSet neg (ranges ++ [(c, c)]) c rest := by
  rw [Wildmat.parseSet]
  · exact hc
  · exact fun _ h => absurd h hdash
  · exact fun _ _ h => absurd h hdash

theorem parseSet_range (hc : c ≠ ']') :
    Wildmat.parseSet neg ranges last ('-' :: c :: rest) = Wildmat.parseSet neg (ranges ++ [(last, c)]) c rest := by
  rw [Wildmat.parseSet]
  exact hc

theorem parseSet_moreCases :
    Wildmat.parseSet neg ranges (firstCase ignorecase c) (moreCases ignorecase c ++ rest) =
      Wildmat.parseSet neg (ranges ++ (moreCases ignorecase c).map fun c => (c, c)) (lastCase ignorecase c) rest := by
  unfold moreCases firstCase lastCase
  split
  · next h =>
    have hc : c.toUpper.isAlpha = true := by
      rw [Char.isAlpha_toUpper_eq_isAlpha]
      exact (Bool.and_eq_true _ _).mp h |>.2
    exact parseSet_char (fun h => by rw [h] at hc; cases hc) (fun h => by rw [h] at hc; cases hc)
  · simp

theorem parseSet_bothCases (hc : c ≠ ']') (hdash : c ≠ '-') :
    Wildmat.parseSet neg ranges last (bothCases ignorecase c ++ rest) =
      Wildmat.parseSet neg (ranges ++ (bothCases ignorecase c).map fun c => (c, c)) (lastCase ignorecase c) rest := by
  rw [bothCases_eq, List.cons_append, parseSet_char (firstCase_ne rfl hc) (firstCase_ne rfl hdash), parseSet_moreCases,
    List.append_assoc]
  rfl

/-- The elements behind the first one are read as they are written. -/
theorem parseSet_elements (hes : Listed loc first es) (hfirst : first = false) (hplain : ∀ e ∈ es, Plain e) :
    Wildmat.parseSet neg ranges last (es.flatMap (writtenElement ignorecase) ++ ']' :: rest) =
      (Wildmat.parse rest).map (.set neg (ranges ++ es.flatMap (writtenRanges ignorecase)) :: ·) := by
  induction hes generalizing ranges last with
  | nil => simp [Wildmat.parseSet]
  | @char _ c es hclose hdash _ hes ih =>
    subst hfirst
    have hc : c ≠ ']' := fun h => Bool.noConfusion (hclose h)
    rw [List.flatMap_cons, writtenElement, List.append_assoc]
    by_cases hlast : c = '-'
    · -- The dash is at the end.
      obtain rfl : es = [] := (hdash hlast).resolve_left Bool.false_ne_true
      subst hlast
      have hdash' : bothCases ignorecase '-' = ['-'] := by cases ignorecase <;> rfl
      simp [writtenRanges, hdash', Wildmat.parseSet]
    · rw [parseSet_bothCases hc hlast, ih rfl (fun e he => hplain e (List.mem_cons_of_mem _ he)), List.flatMap_cons,
        List.append_assoc]
      rfl
  | @range _ lo hi _ _ es _ _ _ hclose hdash hend _ hes ih =>
    subst hfirst
    obtain ⟨lo, hi, rfl, rfl⟩ := plain_range (hplain _ List.mem_cons_self)
    have hlo : lo ≠ ']' := fun h => Bool.noConfusion (hclose (h ▸ rfl))
    have hlo' : lo ≠ '-' := fun h => Bool.noConfusion (hdash (h ▸ rfl))
    have hhi : hi ≠ ']' := fun h => hend (h ▸ rfl)
    simp only [List.flatMap_cons, writtenElement, writtenRanges, List.append_assoc, List.cons_append]
    rw [parseSet_bothCases hlo hlo', bothCases_eq (c := hi), List.cons_append, parseSet_range (firstCase_ne rfl hhi),
      parseSet_moreCases, ih rfl (fun e he => hplain e (List.mem_cons_of_mem _ he))]
    simp only [List.append_assoc, List.cons_append, List.nil_append]
  | coll | cls | equiv => exact absurd (hplain _ List.mem_cons_self) id

theorem parse_opening (hc : neg = false → c ≠ '^') :
    Wildmat.parse ('[' :: ((if neg then ['^'] else []) ++ c :: rest)) = Wildmat.parseSet neg [(c, c)] c rest := by
  cases neg with
  | true => rfl
  | false =>
    have hc := hc rfl
    simp only [Bool.false_eq_true, if_false, List.nil_append]
    rw [Wildmat.parse, if_neg hc]
    exact fun _ _ h => absurd h hc

/-- A set with no names is read as it is written. -/
theorem parse_set (hes : Listed loc true es) (hplain : ∀ e ∈ es, Plain e) (hne : es ≠ [])
    (hhead : neg = false → (elementsText es).head? ≠ some '^') :
    Wildmat.parse ('[' :: ((if neg then ['^'] else []) ++ (es.flatMap (writtenElement ignorecase) ++ ']' :: rest))) =
      (Wildmat.parse rest).map (.set neg (es.flatMap (writtenRanges ignorecase)) :: ·) := by
  cases hes with
  | nil => exact absurd rfl hne
  | @char _ c es _ _ _ hes =>
    have hc : neg = false → firstCase ignorecase c ≠ '^' := fun h => firstCase_ne rfl fun heq => hhead h (heq ▸ rfl)
    rw [List.flatMap_cons, writtenElement, bothCases_eq, List.append_assoc, List.cons_append, parse_opening hc,
      parseSet_moreCases, parseSet_elements hes rfl (fun e he => hplain e (List.mem_cons_of_mem _ he)), List.flatMap_cons,
      writtenRanges, bothCases_eq]
    rfl
  | @range _ lo hi _ _ es _ _ _ _ _ hend _ hes =>
    obtain ⟨lo, hi, rfl, rfl⟩ := plain_range (hplain _ List.mem_cons_self)
    have hlo : neg = false → firstCase ignorecase lo ≠ '^' := fun h => firstCase_ne rfl fun heq => hhead h (heq ▸ rfl)
    have hhi : hi ≠ ']' := fun h => hend (h ▸ rfl)
    simp only [List.flatMap_cons, writtenElement, writtenRanges, bothCases_eq, List.append_assoc, List.cons_append]
    rw [parse_opening hlo, parseSet_moreCases, parseSet_range (firstCase_ne rfl hhi), parseSet_moreCases,
      parseSet_elements hes rfl (fun e he => hplain e (List.mem_cons_of_mem _ he))]
    simp only [List.append_assoc, List.cons_append, List.nil_append, List.map_cons]
  | coll | cls | equiv => exact absurd (hplain _ List.mem_cons_self) id

/-! ### What is taken -/

/-- The characters of an element with its letters in both cases. -/
def InBothCases (ignorecase : Bool) : Element → Char → Prop
  | .point (.char c), d => d ∈ bothCases ignorecase c
  | .range (.char lo) (.char hi), d =>
    d ∈ bothCases ignorecase lo ∨ lastCase ignorecase lo ≤ d ∧ d ≤ firstCase ignorecase hi ∨ d ∈ moreCases ignorecase hi
  | _, _ => False

theorem any_diag {cs : Text} : ((cs.map fun c => (c, c)).any fun r => r.1 ≤ d && d ≤ r.2) = true ↔ d ∈ cs := by
  simp only [List.any_map, List.any_eq_true, Function.comp_apply, Bool.and_eq_true, decide_eq_true_eq]
  constructor
  · rintro ⟨c, hc, hle, hge⟩
    rwa [← Char.le_antisymm hle hge]
  · exact fun hd => ⟨d, hd, Char.le_refl d, Char.le_refl d⟩

theorem any_writtenRanges :
    ((writtenRanges ignorecase e).any fun r => r.1 ≤ d && d ≤ r.2) = true ↔ InBothCases ignorecase e d := by
  match e with
  | .point (.char c) => exact any_diag
  | .range (.char lo) (.char hi) =>
    simp only [writtenRanges, InBothCases, List.any_append, List.any_cons, Bool.or_eq_true, any_diag, Bool.and_eq_true,
      decide_eq_true_eq]
  | .point (.coll _) | .range (.coll _) _ | .range (.char _) (.coll _) | .cls _ | .equiv _ =>
    simp [writtenRanges, InBothCases]

theorem set_takes :
    (Wildmat.Item.set neg (es.flatMap (writtenRanges ignorecase))).takes d = true ↔
      ((∃ e ∈ es, InBothCases ignorecase e d) ↔ neg = false) := by
  simp only [Wildmat.Item.takes, List.any_flatMap, ← any_writtenRanges, bne_iff_ne, ne_eq]
  rw [← List.any_eq_true (l := es)]
  cases neg with
  | true => simp
  | false => simp

end Nget

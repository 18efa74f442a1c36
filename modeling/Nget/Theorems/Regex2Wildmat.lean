import Nget.Theorems.WildmatSets

/-! The pattern that `regex2wildmat` gives has an item for each piece of the expression, so it matches all that the
    expression does if each set takes what the bracket expression takes. An anchor that is not at its end of the
    expression is taken for a character, and `^` alone for the empty string. -/

namespace Nget
open Ere

variable {ignorecase neg : Bool} {c d : Char} {rest wildmat repat out : Text} {loc : Ere.Locale} {es : List Element}
  {pos : Nat} {t : Token} {ts : List Token} {p : Piece} {ps : List Piece}

/-! ### The loop -/

def letterText (ignorecase : Bool) (c : Char) : Text :=
  if ignorecase && c.isAlpha then ['[', c.toLower, c.toUpper, ']'] else [c]

def letterItem (ignorecase : Bool) (c : Char) : Wildmat.Item :=
  if ignorecase && c.isAlpha then .set false [(c.toLower, c.toLower), (c.toUpper, c.toUpper)] else .char c

/-- The characters at which the loop throws. -/
def thrownAt : Text := ['?', '*', '+', '(', ')', '{', '}', '|']

theorem regex2wildmatLoop_throws (hc : c ∈ thrownAt) :
    regex2wildmatLoop repat ignorecase (c :: rest) pos wildmat = .error (conversionError repat (pos + 1) c) := by
  have hc' : c ≠ '.' ∧ c ≠ '\\' := ⟨by rintro rfl; simp [thrownAt] at hc, by rintro rfl; simp [thrownAt] at hc⟩
  rw [regex2wildmatLoop.eq_def]
  dsimp only
  rw [if_neg hc'.1, if_neg hc'.2, if_pos (by simpa [thrownAt, or_assoc] using hc)]

theorem regex2wildmatLoop_letter (hc : c ∉ thrownAt) (hc' : c ≠ '.' ∧ c ≠ '\\' ∧ c ≠ '[') (heol : c = '$' → rest ≠ []) :
    regex2wildmatLoop repat ignorecase (c :: rest) pos wildmat =
      regex2wildmatLoop repat ignorecase rest (pos + 1) (wildmat ++ (letterText ignorecase c ++ atEnd rest)) := by
  have heol' : ¬ (rest.isEmpty && c = '$') = true := by simpa [imp_not_comm] using heol
  rw [regex2wildmatLoop.eq_def]
  dsimp only
  rw [if_neg hc'.1, if_neg hc'.2.1, if_neg (by simpa [thrownAt, or_assoc] using hc), if_neg heol']
  unfold letterText
  split
  · rfl
  · rw [if_neg hc'.2.2]
    rfl

theorem regex2wildmatLoop_any (hrest : rest.head? ≠ some '*') :
    regex2wildmatLoop repat ignorecase ('.' :: rest) pos wildmat =
      regex2wildmatLoop repat ignorecase rest (pos + 1) (wildmat ++ (['?'] ++ atEnd rest)) := by
  rw [regex2wildmatLoop.eq_def]
  dsimp only
  rw [if_pos rfl]
  split
  · exact absurd rfl hrest
  · rfl

theorem regex2wildmatLoop_gap :
    regex2wildmatLoop repat ignorecase ('.' :: '*' :: rest) pos wildmat =
      regex2wildmatLoop repat ignorecase rest (pos + 2) (wildmat ++ (['*'] ++ atEnd rest)) := rfl

def quotedText (c : Char) : Text := if c = '*' || c = '?' || c = '[' || c = ']' then ['\\', c] else [c]

theorem quoted_wellFormed (hc : (Token.quoted c).WellFormed loc) : ¬ (c = '<' || c = '>' || c.isAlphanum) = true := by
  have hall : ∀ c ∈ special ++ [']', '}'], ¬ (c = '<' || c = '>' || c.isAlphanum) = true := by
    simp [special, Char.isAlphanum, Char.isAlpha, Char.isUpper, Char.isLower, Char.isDigit]
  exact hall c (by simpa [Token.WellFormed] using hc)

theorem regex2wildmatLoop_quoted (hc : (Token.quoted c).WellFormed loc) :
    regex2wildmatLoop repat ignorecase ('\\' :: c :: rest) pos wildmat =
      regex2wildmatLoop repat ignorecase rest (pos + 2) (wildmat ++ (quotedText c ++ atEnd rest)) := by
  have hc' := quoted_wellFormed hc
  rw [regex2wildmatLoop.eq_def]
  dsimp only
  rw [if_neg (by decide), if_pos rfl]
  unfold quotedText
  split
  · rfl
  · split <;> rfl

theorem regex2wildmatLoop_bracket (hwf : (Token.bracket neg es).WellFormed loc) (hplain : ∀ e ∈ es, Plain e)
    (hclose : neg = true → (elementsText es).head? ≠ some ']') : ∃ pos',
    regex2wildmatLoop repat ignorecase (bracketText neg es ++ rest) pos wildmat =
      regex2wildmatLoop repat ignorecase rest pos' (wildmat ++
        ('[' :: ((if neg then ['^'] else []) ++ (es.flatMap (writtenElement ignorecase) ++ [']'])) ++ atEnd rest)) := by
  obtain ⟨hne, hes, -⟩ := hwf
  have hopen : ∀ {rest}, regex2wildmatLoop repat ignorecase ('[' :: rest) pos wildmat =
      regex2wildmatSet repat ignorecase true '\xff' rest (pos + 1) (wildmat ++ ['[']) := by
    intro rest
    rw [regex2wildmatLoop.eq_def]
    dsimp only
    rw [if_neg (by decide), if_neg (by decide), if_neg (by decide), if_neg (by simp),
      if_neg (by simp [Char.isAlpha, Char.isUpper]), if_pos rfl]
  rw [bracketText, List.cons_append, hopen]
  cases neg with
  | false =>
    simp only [Bool.false_eq_true, if_false, List.nil_append, List.append_assoc, List.cons_append]
    rw [regex2wildmatSet_elements hes hplain (by simp) (fun _ => hne), List.append_assoc]
    exact ⟨_, rfl⟩
  | true =>
    have hneg : bothCases ignorecase '^' = ['^'] := by cases ignorecase <;> rfl
    simp only [if_true, List.nil_append, List.append_assoc, List.cons_append]
    rw [regex2wildmatSet_char (by decide), regex2wildmatSet_elements hes hplain (fun _ _ => hclose rfl) (by simp), hneg,
      List.append_assoc, List.append_assoc]
    exact ⟨_, rfl⟩

/-! ### The pattern -/

theorem parse_char (hc : c ∉ ['*', '?', '\\', '[']) : Wildmat.parse (c :: rest) = (Wildmat.parse rest).map (.char c :: ·) := by
  simp only [List.mem_cons, List.not_mem_nil, or_false, not_or] at hc
  obtain ⟨hstar, hany, hback, hset⟩ := hc
  conv_lhs => rw [Wildmat.parse.eq_def]
  split <;> simp_all

theorem parse_letter (hc : c ∉ ['*', '?', '\\', '[']) :
    Wildmat.parse (letterText ignorecase c ++ rest) = (Wildmat.parse rest).map (letterItem ignorecase c :: ·) := by
  unfold letterText letterItem
  split
  · next h =>
    have hc : c.isAlpha = true := (Bool.and_eq_true _ _).mp h |>.2
    have hlower : c.toLower ≠ '^' := fun h => by
      rw [← Char.isAlpha_toLower_eq_isAlpha, h] at hc
      cases hc
    have hupper : c.toUpper ≠ ']' ∧ c.toUpper ≠ '-' := by
      constructor <;>
      · intro h
        rw [← Char.isAlpha_toUpper_eq_isAlpha, h] at hc
        cases hc
    change Wildmat.parse ('[' :: ((if false then ['^'] else []) ++ c.toLower :: c.toUpper :: ']' :: rest)) = _
    rw [parse_opening fun _ => hlower, parseSet_char hupper.1 hupper.2]
    rfl
  · exact parse_char hc

theorem parse_quoted (hc : c ≠ '\\') :
    Wildmat.parse (quotedText c ++ rest) = (Wildmat.parse rest).map (.char c :: ·) := by
  unfold quotedText
  split
  · rfl
  · exact parse_char (by simp_all)

/-- The item of a piece. An anchor gives the character that it is written with. -/
def pieceItem (ignorecase : Bool) : Piece → Wildmat.Item
  | .char c => letterItem ignorecase c
  | .any => .any
  | .bracket neg es => .set neg (es.flatMap (writtenRanges ignorecase))
  | .gap => .star
  | .bol => .char '^'
  | .eol => .char '$'

/-- The items of the pieces; `$` at the end gives none, and without it there is a star at the end. -/
def pieceItems (ignorecase : Bool) : List Piece → List Wildmat.Item
  | [] => []
  | [p] => if p = .eol then [] else [pieceItem ignorecase p, .star]
  | p :: q :: ps => pieceItem ignorecase p :: pieceItems ignorecase (q :: ps)

/-- Not a quoted backslash, a bracket expression with names, or one of the form `[^]...]`. -/
def PlainToken : Token → Prop
  | .quoted c => c ≠ '\\'
  | .bracket neg es => (∀ e ∈ es, Plain e) ∧ (neg = true → (elementsText es).head? ≠ some ']')
  | _ => True

/-- What the loop adds for the tokens is read as the items of their pieces. -/
def Converted (ignorecase : Bool) (ts : List Token) (wildmat out : Text) : Prop :=
  ∃ ps added, Flat ts ps ∧ out = wildmat ++ added ∧ Wildmat.parse added = some (pieceItems ignorecase ps)

/-- A token is converted, if what is added for it is read as the item of a piece, and the tokens behind it are. -/
theorem Converted.cons {us : List Token} {added : Text} (hp : p = .eol → ts ≠ [])
    (hparse : ∀ rest, Wildmat.parse (added ++ rest) = (Wildmat.parse rest).map (pieceItem ignorecase p :: ·))
    (hflat : ∀ ps, Flat ts ps → Flat us (p :: ps))
    (ih : ∀ wildmat, regex2wildmatLoop repat ignorecase (ts.flatMap Token.text) pos wildmat = .ok out →
      Converted ignorecase ts wildmat out)
    (h : regex2wildmatLoop repat ignorecase (ts.flatMap Token.text) pos
      (wildmat ++ (added ++ atEnd (ts.flatMap Token.text))) = .ok out) :
    Converted ignorecase us wildmat out := by
  by_cases hts : ts = []
  · -- The star at the end.
    subst hts
    refine ⟨[p], added ++ ['*'], hflat [] .nil, (Except.ok.inj h).symm, ?_⟩
    rw [hparse, pieceItems, if_neg fun heq => hp heq rfl]
    rfl
  · have hend : atEnd (ts.flatMap Token.text) = [] := if_neg fun hnil =>
      hts (tokensText_eq_nil.1 (List.isEmpty_iff.1 hnil))
    rw [hend, List.append_nil] at h
    obtain ⟨ps, more, hps, rfl, hmore⟩ := ih _ h
    refine ⟨p :: ps, added ++ more, hflat ps hps, List.append_assoc .., ?_⟩
    cases ps with
    | nil =>
      cases hps
      exact absurd rfl hts
    | cons q ps => rw [hparse, hmore, pieceItems, Option.map_some]

theorem head_tokensText (hwf : ∀ t ∈ ts, t.WellFormed loc) (hhead : (ts.flatMap Token.text).head? = some '*') :
    ts.head? = some (.dup .star) := by
  cases ts with
  | nil => cases hhead
  | cons t ts =>
    rw [List.flatMap_cons, List.head?_append_of_ne_nil _ Token.text_ne_nil] at hhead
    rw [List.head?_cons, (Token.eq_of_head (hwf t List.mem_cons_self)).1 hhead]

/-- What the loop accepts is without choice, and it adds an item for each piece. -/
theorem converted_of_loop : ∀ (ts : List Token) {pos : Nat} {wildmat : Text}, (∀ t ∈ ts, t.WellFormed loc) →
    (∀ t ∈ ts, PlainToken t) →
    regex2wildmatLoop repat ignorecase (ts.flatMap Token.text) pos wildmat = .ok out → Converted ignorecase ts wildmat out
  | [], _, _, _, _, h => ⟨[], [], .nil, by rw [List.append_nil]; exact (Except.ok.inj h).symm, rfl⟩
  | t :: ts, pos, wildmat, hwf, hplain, h => by
    have hwf' : ∀ t ∈ ts, t.WellFormed loc := fun t ht => hwf t (List.mem_cons_of_mem _ ht)
    have hplain' : ∀ t ∈ ts, PlainToken t := fun t ht => hplain t (List.mem_cons_of_mem _ ht)
    have ih : ∀ pos wildmat, regex2wildmatLoop repat ignorecase (ts.flatMap Token.text) pos wildmat = .ok out →
      Converted ignorecase ts wildmat out := fun _ _ => converted_of_loop ts hwf' hplain'
    rw [List.flatMap_cons] at h
    have hthrow : ∀ c ∈ thrownAt, t.text.head? = some c → False := fun c hc hhead => by
      obtain ⟨more, hmore⟩ := List.head?_eq_some_iff.1 hhead
      rw [hmore, List.cons_append, regex2wildmatLoop_throws hc] at h
      cases h
    cases t with
    | char c =>
      have hc : c ∉ special := hwf _ List.mem_cons_self
      have hthrow' : c ∉ thrownAt := fun hmem => hthrow c hmem rfl
      simp only [special, List.mem_cons, List.not_mem_nil, or_false, not_or] at hc
      change regex2wildmatLoop repat ignorecase (c :: ts.flatMap Token.text) pos wildmat = .ok out at h
      rw [regex2wildmatLoop_letter hthrow' ⟨hc.2.1, hc.2.2.2.2.2.2.2.2.2.2.2, hc.2.2.1⟩
        (fun heol => absurd heol hc.2.2.2.1)] at h
      exact .cons (p := .char c) (fun h => Piece.noConfusion h) (fun _ => parse_letter (by simp [hc])) (fun _ => .char) (ih _) h
    | quoted c =>
      have hc : c.isAlpha = false := by
        have := quoted_wellFormed (hwf _ List.mem_cons_self)
        simp_all [Char.isAlphanum]
      have hitem : letterItem ignorecase c = .char c := if_neg (by simp [hc])
      change regex2wildmatLoop repat ignorecase ('\\' :: c :: ts.flatMap Token.text) pos wildmat = .ok out at h
      rw [regex2wildmatLoop_quoted (hwf _ List.mem_cons_self)] at h
      refine .cons (p := .char c) (fun h => Piece.noConfusion h) (fun _ => ?_) (fun _ => .quoted) (ih _) h
      rw [pieceItem, hitem, parse_quoted (hplain _ List.mem_cons_self)]
    | any =>
      by_cases hstar : ts.head? = some (.dup .star)
      · obtain ⟨ts, rfl⟩ := List.head?_eq_some_iff.1 hstar
        change regex2wildmatLoop repat ignorecase ('.' :: '*' :: ts.flatMap Token.text) pos wildmat = .ok out at h
        rw [regex2wildmatLoop_gap] at h
        exact .cons (p := .gap) (fun h => Piece.noConfusion h) (fun _ => rfl) (fun _ => .gap)
          (fun _ => converted_of_loop ts (fun t ht => hwf' t (List.mem_cons_of_mem _ ht))
            (fun t ht => hplain' t (List.mem_cons_of_mem _ ht))) h
      · change regex2wildmatLoop repat ignorecase ('.' :: ts.flatMap Token.text) pos wildmat = .ok out at h
        rw [regex2wildmatLoop_any fun hhead => hstar (head_tokensText hwf' hhead)] at h
        exact .cons (p := .any) (fun h => Piece.noConfusion h) (fun _ => rfl) (fun _ => .any) (ih _) h
    | bracket neg es =>
      have hbracket := hwf _ List.mem_cons_self
      obtain ⟨hes, hclose⟩ := hplain _ List.mem_cons_self
      obtain ⟨pos', heq⟩ := regex2wildmatLoop_bracket hbracket hes hclose
      refine .cons (p := .bracket neg es) (fun h => Piece.noConfusion h) (fun rest => ?_) (fun _ => .bracket)
        (ih pos') (heq.symm.trans h)
      rw [pieceItem, ← parse_set hbracket.2.1 hes hbracket.1 hbracket.2.2]
      simp
    | bol =>
      have hitem : letterItem ignorecase '^' = .char '^' := by cases ignorecase <;> rfl
      change regex2wildmatLoop repat ignorecase ('^' :: ts.flatMap Token.text) pos wildmat = .ok out at h
      rw [regex2wildmatLoop_letter (by decide) (by decide) (fun heol => absurd heol (by decide))] at h
      refine .cons (p := .bol) (fun h => Piece.noConfusion h) (fun _ => ?_) (fun _ => .bol) (ih _) h
      rw [pieceItem, ← hitem, parse_letter (by decide)]
    | eol =>
      by_cases hts : ts = []
      · -- The end of the expression.
        subst hts
        exact ⟨[.eol], [], .eol .nil, by rw [List.append_nil]; exact (Except.ok.inj h).symm, rfl⟩
      · have hitem : letterItem ignorecase '$' = .char '$' := by cases ignorecase <;> rfl
        change regex2wildmatLoop repat ignorecase ('$' :: ts.flatMap Token.text) pos wildmat = .ok out at h
        rw [regex2wildmatLoop_letter (by decide) (by decide) fun _ hnil => hts (tokensText_eq_nil.1 hnil)] at h
        refine .cons (p := .eol) (fun _ => hts) (fun _ => ?_) (fun _ => .eol) (ih _) h
        rw [pieceItem, ← hitem, parse_letter (by decide)]
    | lparen => exact (hthrow '(' (by decide) rfl).elim
    | rparen => exact (hthrow ')' (by decide) rfl).elim
    | bar => exact (hthrow '|' (by decide) rfl).elim
    | dup d =>
      cases d with
      | star => exact (hthrow '*' (by decide) rfl).elim
      | plus => exact (hthrow '+' (by decide) rfl).elim
      | opt => exact (hthrow '?' (by decide) rfl).elim
      | interval lo hi => cases hi <;> exact (hthrow '{' (by decide) rfl).elim
  termination_by ts => ts.length

/-- The items of a pattern: without `^` at the start there is a star. -/
def searchItems (ignorecase : Bool) : List Piece → List Wildmat.Item
  | .bol :: ps => pieceItems ignorecase ps
  | ps => .star :: pieceItems ignorecase ps

theorem regex2wildmat_items (hspells : Spells loc ts repat) (hplain : ∀ t ∈ ts, PlainToken t)
    (h : regex2wildmat repat ignorecase = .ok wildmat) :
    ∃ ps, Flat ts ps ∧ Wildmat.parse wildmat = some (searchItems ignorecase ps) := by
  obtain ⟨hwf, rfl⟩ := hspells
  cases ts with
  | nil =>
    obtain rfl := Except.ok.inj h
    exact ⟨[], .nil, rfl⟩
  | cons t ts =>
    by_cases ht : t = .bol
    · subst ht
      obtain ⟨ps, added, hps, rfl, hparse⟩ := converted_of_loop ts (fun t ht => hwf t (List.mem_cons_of_mem _ ht))
        (fun t ht => hplain t (List.mem_cons_of_mem _ ht)) h
      exact ⟨.bol :: ps, .bol hps, hparse⟩
    · have hhead : ((t :: ts).flatMap Token.text).head? ≠ some '^' := fun hhead => by
        rw [List.flatMap_cons, List.head?_append_of_ne_nil _ Token.text_ne_nil] at hhead
        exact ht ((Token.eq_of_head (hwf t List.mem_cons_self)).2 hhead)
      have hloop : regex2wildmatLoop ((t :: ts).flatMap Token.text) ignorecase ((t :: ts).flatMap Token.text) 0 ['*'] =
          .ok wildmat := by
        unfold regex2wildmat at h
        split at h
        · next hnil => exact absurd (tokensText_eq_nil.1 hnil) (List.cons_ne_nil _ _)
        · next hcons => exact absurd (by rw [hcons]; rfl) hhead
        · exact h
      obtain ⟨ps, added, hps, rfl, hparse⟩ := converted_of_loop (t :: ts) hwf hplain hloop
      refine ⟨ps, hps, ?_⟩
      have hsearch : searchItems ignorecase ps = .star :: pieceItems ignorecase ps := by
        unfold searchItems
        split
        · cases hps
          exact absurd rfl ht
        · rfl
      rw [hsearch]
      change (Wildmat.parse added).map _ = _
      rw [hparse]
      rfl

/-! ### What the items take -/

/-- The set of a bracket expression takes all that the expression takes. -/
def Covers (loc : Ere.Locale) (ignorecase neg : Bool) (es : List Element) : Prop :=
  ∀ d, BracketTakes loc (folded ignorecase) neg es d → ((∃ e ∈ es, InBothCases ignorecase e d) ↔ neg = false)

/-- With regard to case it always does. -/
theorem covers_of_case {first : Bool} (hes : Listed loc first es) (hplain : ∀ e ∈ es, Plain e) : Covers loc false neg es := by
  have hiff : ∀ d, (∃ e ∈ es, ∃ c, e.Has loc c ∧ folded false c = folded false d) ↔ ∃ e ∈ es, InBothCases false e d := by
    intro d
    induction hes with
    | nil => simp
    | @char _ c es _ _ _ _ ih =>
      simp only [List.exists_mem_cons_iff, ih fun e he => hplain e (List.mem_cons_of_mem _ he)]
      simp [Element.Has, Point.value, folded, InBothCases, bothCases, eq_comm]
    | @range _ lo hi l h es hlo hhi hle _ _ _ _ _ ih =>
      simp only [List.exists_mem_cons_iff, ih fun e he => hplain e (List.mem_cons_of_mem _ he)]
      obtain ⟨lo, hi, rfl, rfl⟩ := plain_range (hplain _ List.mem_cons_self)
      obtain rfl := Option.some.inj hlo
      obtain rfl := Option.some.inj hhi
      refine or_congr_left ⟨?_, ?_⟩
      · rintro ⟨c, ⟨l, h, hl, hh, hlc, hch⟩, rfl⟩
        obtain rfl := Option.some.inj hl
        obtain rfl := Option.some.inj hh
        exact .inr (.inl ⟨hlc, hch⟩)
      · rintro (hd | hd | hd)
        · obtain rfl : d = lo := by simpa [bothCases] using hd
          exact ⟨d, ⟨d, hi, rfl, rfl, Char.le_refl d, hle⟩, rfl⟩
        · exact ⟨d, ⟨lo, hi, rfl, rfl, hd⟩, rfl⟩
        · simp [moreCases] at hd
    | coll | cls | equiv => exact absurd (hplain _ List.mem_cons_self) id
  exact fun d hd => (hiff d).symm.trans hd

theorem letterItem_takes : (letterItem ignorecase c).takes d = true ↔ d ∈ bothCases ignorecase c := by
  unfold letterItem bothCases
  split
  · rw [← any_diag]
    simp [Wildmat.Item.takes]
  · simp [Wildmat.Item.takes, eq_comm]

theorem pieceItem_takes (hcover : ∀ neg es, p = .bracket neg es → Covers loc ignorecase neg es)
    (h : p.Takes loc (folded ignorecase) d) : (pieceItem ignorecase p).takes d = true := by
  cases p with
  | char c => exact letterItem_takes.2 (folded_eq_iff.1 h)
  | any => rfl
  | bracket neg es => exact set_takes.2 (hcover neg es rfl d h)
  | gap | bol | eol => cases h

theorem pieceItem_eq_star : pieceItem ignorecase p = .star ↔ p = .gap := by
  cases p with
  | char c =>
    simp only [pieceItem, letterItem]
    split <;> simp
  | any | bracket | gap | bol | eol => simp [pieceItem]

theorem matchItems_piece {items : List Wildmat.Item} {before mid after s : Text}
    (hcover : ∀ neg es, p = .bracket neg es → Covers loc ignorecase neg es) (hbol : p ≠ .bol) (heol : p ≠ .eol)
    (hp : p.Matches loc (folded ignorecase) before mid after) (hs : Wildmat.matchItems items s = true) :
    Wildmat.matchItems (pieceItem ignorecase p :: items) (mid ++ s) = true := by
  by_cases hgap : p = .gap
  · subst hgap
    exact Wildmat.matchItems_star.2 ⟨mid, s, rfl, hs⟩
  · have hone : p.takesOne = true := by cases p <;> simp_all [Piece.takesOne]
    obtain ⟨d, rfl, hd⟩ := (Piece.matches_of_takesOne hone).1 hp
    exact (Wildmat.matchItems_cons (hgap ∘ pieceItem_eq_star.1)).2 ⟨d, s, rfl, pieceItem_takes hcover hd, hs⟩

/-- The items match what the pieces do, without other anchors than `$` at the end. -/
theorem matchItems_pieceItems {before mid after : Text}
    (hcover : ∀ neg es, .bracket neg es ∈ ps → Covers loc ignorecase neg es) (hbol : .bol ∉ ps) (heol : OnlyLast .eol ps)
    (hne : ps ≠ []) (h : MatchesAll loc (folded ignorecase) ps before mid after) :
    Wildmat.matchItems (pieceItems ignorecase ps) (mid ++ after) = true := by
  induction ps generalizing before mid with
  | nil => exact absurd rfl hne
  | cons p ps ih =>
    obtain ⟨m, k, rfl, hp, hps⟩ := h
    have hcover' : ∀ neg es, p = .bracket neg es → Covers loc ignorecase neg es := fun neg es hp =>
      hcover neg es (hp ▸ List.mem_cons_self)
    have hbol' : p ≠ .bol := fun hp => hbol (hp ▸ List.mem_cons_self)
    rw [List.append_assoc]
    cases ps with
    | nil =>
      obtain rfl : k = [] := hps
      by_cases hp' : p = .eol
      · subst hp'
        obtain ⟨rfl, hafter⟩ := hp
        rw [hafter]
        rfl
      · rw [pieceItems, if_neg hp']
        exact matchItems_piece hcover' hbol' hp' hp (Wildmat.matchItems_star.2 ⟨after, [], (List.append_nil _).symm, rfl⟩)
    | cons q ps =>
      exact matchItems_piece hcover' hbol' (fun hp => List.cons_ne_nil _ _ (heol.1 hp)) hp
        (ih (fun neg es hmem => hcover neg es (List.mem_cons_of_mem _ hmem)) (fun hmem => hbol (List.mem_cons_of_mem _ hmem))
          heol.2 (List.cons_ne_nil _ _) hps)

theorem ones_pieceItem_cons {items : List Wildmat.Item} :
    Wildmat.ones (pieceItem ignorecase p :: items) =
      if p = .gap then Wildmat.ones items else pieceItem ignorecase p :: Wildmat.ones items := by
  by_cases hgap : p = .gap
  · rw [if_pos hgap, hgap]
    rfl
  · rw [if_neg hgap]
    exact List.filter_cons_of_pos (decide_eq_true (hgap ∘ pieceItem_eq_star.1))

theorem ones_pieceItems_cons (h : p = .eol → ps ≠ []) :
    Wildmat.ones (pieceItems ignorecase (p :: ps)) =
      if p = .gap then Wildmat.ones (pieceItems ignorecase ps)
      else pieceItem ignorecase p :: Wildmat.ones (pieceItems ignorecase ps) := by
  cases ps with
  | nil =>
    have hitems : pieceItems ignorecase [p] = [pieceItem ignorecase p, .star] := if_neg fun hp => h hp rfl
    rw [hitems, ones_pieceItem_cons]
    rfl
  | cons q ps => rw [pieceItems, ones_pieceItem_cons]

/-- There is one more item that takes a character for each anchor, but for `$` at the end. -/
theorem ones_pieceItems :
    (ones ps).length ≤ (Wildmat.ones (pieceItems ignorecase ps)).length ∧
      ((Wildmat.ones (pieceItems ignorecase ps)).length ≤ (ones ps).length →
        .bol ∉ ps ∧ OnlyLast .eol ps ∧ Wildmat.ones (pieceItems ignorecase ps) = (ones ps).map (pieceItem ignorecase)) := by
  induction ps with
  | nil => simp [pieceItems, Wildmat.ones, ones, OnlyLast]
  | cons p ps ih =>
    obtain ⟨hle, hall⟩ := ih
    by_cases hend : p = .eol ∧ ps = []
    · obtain ⟨rfl, rfl⟩ := hend
      simp [pieceItems, Wildmat.ones, ones, Piece.takesOne, OnlyLast]
    rw [ones_pieceItems_cons fun hp hps => hend ⟨hp, hps⟩]
    by_cases hone : p.takesOne = true
    · have hp : p ≠ .gap ∧ p ≠ .bol ∧ p ≠ .eol := by
        refine ⟨?_, ?_, ?_⟩ <;>
        · rintro rfl
          cases hone
      rw [ones, List.filter_cons_of_pos hone, if_neg hp.1, List.length_cons, List.length_cons]
      refine ⟨Nat.succ_le_succ hle, fun hlen => ?_⟩
      obtain ⟨hbol, heol, hones⟩ := hall (Nat.le_of_succ_le_succ hlen)
      exact ⟨by simp [hbol, Ne.symm hp.2.1], ⟨fun h => absurd h hp.2.2, heol⟩, by rw [hones]; rfl⟩
    · rw [ones, List.filter_cons_of_neg hone]
      by_cases hgap : p = .gap
      · subst hgap
        rw [if_pos rfl]
        refine ⟨hle, fun hlen => ?_⟩
        obtain ⟨hbol, heol, hones⟩ := hall hlen
        exact ⟨by simp [hbol], ⟨fun h => Piece.noConfusion h, heol⟩, hones⟩
      · -- An anchor has an item that no piece has.
        rw [if_neg hgap, List.length_cons]
        exact ⟨Nat.le_succ_of_le hle, fun hlen => absurd (Nat.lt_of_succ_le hlen) (Nat.not_lt.2 hle)⟩

theorem ones_searchItems (h : (Wildmat.ones (searchItems ignorecase ps)).length ≤ (ones ps).length) :
    .bol ∉ ps.tail ∧ OnlyLast .eol ps ∧ Wildmat.ones (searchItems ignorecase ps) = (ones ps).map (pieceItem ignorecase) := by
  unfold searchItems at *
  split at h
  · obtain ⟨hbol, heol, hones⟩ := ones_pieceItems.2 h
    exact ⟨hbol, ⟨fun h => Piece.noConfusion h, heol⟩, hones⟩
  · obtain ⟨hbol, heol, hones⟩ := ones_pieceItems.2 h
    exact ⟨fun hmem => hbol (List.mem_of_mem_tail hmem), heol, hones⟩

/-! ### The condition -/

/-- If all that one relation gives for a list is given by another one, so is each single pair. -/
theorem forall₂_imp_of_all {α β : Type} {R S : α → β → Prop} {l : List α} {cs : List β} (h : List.Forall₂ R l cs)
    (hall : ∀ cs, List.Forall₂ R l cs → List.Forall₂ S l cs) : ∀ a ∈ l, ∀ b, R a b → S a b := by
  induction h with
  | nil => simp
  | @cons a b l cs hab htail ih =>
    have hhead : ∀ b, R a b → S a b := fun b hb => (List.forall₂_cons.1 (hall _ (.cons hb htail))).1
    have hrest : ∀ cs, List.Forall₂ R l cs → List.Forall₂ S l cs := fun cs hcs =>
      (List.forall₂_cons.1 (hall _ (.cons hab hcs))).2
    exact List.forall_mem_cons.2 ⟨hhead, ih hrest⟩

/-- The expression is not `^` alone, its anchors are at its ends, and its sets take what the bracket expressions do. -/
structure Convertible (loc : Ere.Locale) (ignorecase : Bool) (ts : List Token) : Prop where
  ne_bol : ts ≠ [.bol]
  bol : .bol ∉ ts.tail
  eol : OnlyLast .eol ts
  covers : ∀ neg es, .bracket neg es ∈ ts → Covers loc ignorecase neg es

variable {r : Regex}

/-- With no piece left out of the search, the items match what the expression does. -/
theorem Convertible.matchItems (hc : Convertible loc ignorecase ts) (hps : Flat ts ps) (hparses : Parses .ere ts r)
    {s : Text} (h : r.Found loc (folded ignorecase) s) : Wildmat.matchItems (searchItems ignorecase ps) s = true := by
  obtain ⟨before, mid, after, rfl, hm⟩ := h
  have hm := (hparses.matches_iff hps).1 hm
  have hcover : ∀ neg es, .bracket neg es ∈ ps → Covers loc ignorecase neg es := fun neg es hmem =>
    hc.covers neg es (hps.bracket_mem.2 hmem)
  have hbol := hps.bol_mem_tail.not.1 hc.bol
  have heol := hps.onlyLast_eol.1 hc.eol
  have hne : ps ≠ [] := fun hnil => by
    obtain ⟨t, ts, rfl, -⟩ := hparses.head_ne
    exact List.cons_ne_nil _ _ (hps.eq_nil_iff.2 hnil)
  unfold searchItems
  split
  · next qs =>
    obtain ⟨m, k, rfl, ⟨rfl, rfl⟩, hqs⟩ := hm
    have hqs' : qs ≠ [] := fun hnil => hc.ne_bol (hps.eq_bol.2 (by rw [hnil]))
    exact matchItems_pieceItems (fun neg es hmem => hcover neg es (List.mem_cons_of_mem _ hmem)) hbol heol.2 hqs' hqs
  · next hhead =>
    have hbol' : .bol ∉ ps := by
      cases ps with
      | nil => simp
      | cons p ps => exact fun hmem => (List.mem_cons.1 hmem).elim (fun h => hhead ps (by rw [h])) hbol
    rw [List.append_assoc]
    exact Wildmat.matchItems_star.2 ⟨before, _, rfl, matchItems_pieceItems hcover hbol' heol hne hm⟩

/-- If the items match all that the expression does, and that is something, it is convertible. -/
theorem convertible_of_matchItems (hps : Flat ts ps) (hparses : Parses .ere ts r)
    (hall : ∀ s, r.Found loc (folded ignorecase) s → Wildmat.matchItems (searchItems ignorecase ps) s = true)
    {s : Text} (h : r.Found loc (folded ignorecase) s) : Convertible loc ignorecase ts := by
  have hfound : ∀ {before mid after : Text}, MatchesAll loc (folded ignorecase) ps before mid after →
      Wildmat.matchItems (searchItems ignorecase ps) (before ++ mid ++ after) = true := fun hm =>
    hall _ ⟨_, _, _, rfl, (hparses.matches_iff hps).2 hm⟩
  obtain ⟨before, mid, after, rfl, hm⟩ := h
  -- The shortest match has no characters but those of the pieces, so there are no items but theirs.
  obtain ⟨cs, htakes, hcs, -⟩ := ((hparses.matches_iff hps).1 hm).shortest (fun _ => rfl) (fun _ => rfl)
  have hlen := (Wildmat.ones_of_matchItems (hfound hcs)).1
  rw [List.nil_append, List.append_nil, ← htakes.length_eq] at hlen
  obtain ⟨hbol, heol, hones⟩ := ones_searchItems hlen
  have hcovers := forall₂_imp_of_all htakes fun cs hcs => by
    have hm := hfound (matchesAll_of_takes_tail hcs hbol heol)
    rw [List.nil_append, List.append_nil] at hm
    have htakes := (Wildmat.ones_of_matchItems hm).2 (by rw [hones, List.length_map, hcs.length_eq])
    rw [hones, List.forall₂_map_left_iff] at htakes
    exact htakes
  refine ⟨fun hts => ?_, hps.bol_mem_tail.not.2 hbol, hps.onlyLast_eol.2 heol, fun neg es hmem d hd => ?_⟩
  · -- `^` alone matches every string.
    obtain rfl := hps.eq_bol.1 hts
    have hm : MatchesAll loc (folded ignorecase) [.bol] [] [] ['a'] := ⟨[], [], rfl, ⟨rfl, rfl⟩, rfl⟩
    exact Bool.noConfusion (hfound hm)
  · exact set_takes.1 (hcovers _ (List.mem_filter.2 ⟨hps.bracket_mem.1 hmem, rfl⟩) d hd)

/-- The pattern matches all that the expression does, exactly when the expression matches nothing or is convertible. -/
theorem regex2wildmat_sound_iff (hspells : Spells loc ts repat) (hparses : Parses .ere ts r)
    (hplain : ∀ t ∈ ts, PlainToken t) (h : regex2wildmat repat ignorecase = .ok wildmat) :
    (∀ s, r.Found loc (folded ignorecase) s → Wildmat.wildmat wildmat s = true) ↔
      ((∃ s, r.Found loc (folded ignorecase) s) → Convertible loc ignorecase ts) := by
  obtain ⟨ps, hps, hparse⟩ := regex2wildmat_items hspells hplain h
  simp only [Wildmat.wildmat, hparse, Option.map_some, Option.getD_some]
  exact ⟨fun hall ⟨_, hs⟩ => convertible_of_matchItems hps hparses hall hs,
    fun hc s hs => (hc ⟨s, hs⟩).matchItems hps hparses hs⟩

/-- A locale without names. -/
def noNames : Ere.Locale := ⟨fun _ => none, fun _ => none, fun _ => none⟩

theorem regex2wildmat_sound_iff_range :
    regex2wildmat "[^a-c].$".toList false = .ok "*[^a-c]?".toList ∧
      ∀ s, (Regex.cat (.cat (.bracket true [.range (.char 'a') (.char 'c')]) .any) .eol).Found noNames (folded false) s →
        Wildmat.wildmat "*[^a-c]?".toList s = true := by
  have hes : Listed noNames true [.range (.char 'a') (.char 'c')] :=
    .range rfl rfl (by decide) nofun nofun nofun nofun .nil
  have hspells : Spells noNames [.bracket true [.range (.char 'a') (.char 'c')], .any, .eol] "[^a-c].$".toList :=
    ⟨by simpa [Token.WellFormed] using hes, by decide⟩
  have hparses : Parses .ere [.bracket true [.range (.char 'a') (.char 'c')], .any, .eol] _ :=
    .branch (.cat (.cat (.expression .bracket) .any) .eol)
  have hplain : ∀ e ∈ [Element.range (.char 'a') (.char 'c')], Plain e := by simp [Plain]
  have htokens : ∀ t ∈ [Token.bracket true [.range (.char 'a') (.char 'c')], .any, .eol], PlainToken t := by
    simp [PlainToken, hplain, elementsText, Element.text, Point.text]
  have hok : regex2wildmat "[^a-c].$".toList false = .ok "*[^a-c]?".toList := by decide +kernel
  refine ⟨hok, (regex2wildmat_sound_iff hspells hparses htokens hok).2 fun _ =>
    ⟨by decide, by decide, by simp [OnlyLast], fun neg es hmem => ?_⟩⟩
  obtain rfl : es = [.range (.char 'a') (.char 'c')] := by
    simp at hmem
    exact hmem.2
  exact covers_of_case hes hplain

/-- A quoted backslash quotes the star behind it. -/
theorem regex2wildmat_sound_fails :
    ¬ ∀ (loc : Ere.Locale) (ts : List Token) (r : Regex) (repat : Text) (ignorecase : Bool) (wildmat : Text),
      Spells loc ts repat → Parses .ere ts r → regex2wildmat repat ignorecase = .ok wildmat →
      ∀ s, r.Found loc (folded ignorecase) s → Wildmat.wildmat wildmat s = true := fun hall => by
  have hspells : Spells noNames [.quoted '\\'] ['\\', '\\'] := ⟨by simp [Token.WellFormed, special], rfl⟩
  have hparses : Parses .ere [.quoted '\\'] (.char '\\') := .branch (.expression .quoted)
  have hfound : (Regex.char '\\').Found noNames (folded false) ['\\'] := ⟨[], ['\\'], [], rfl, '\\', rfl, rfl⟩
  exact absurd (hall _ _ _ _ false "*\\*".toList hspells hparses rfl ['\\'] hfound) (by decide +kernel)

end Nget

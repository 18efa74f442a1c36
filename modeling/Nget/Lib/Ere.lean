import Mathlib.Data.List.Forall2
import Mathlib.Data.Char

/-! Extended regular expressions as POSIX has them: the tokens and the grammar of an expression, and what it matches.
    Characters match up to `fold`, which is the identity or, without regard to case, takes a letter to its lower case. -/

namespace Ere

/-- What the locale gives for the names of collating symbols, character classes and equivalence classes. -/
structure Locale where
  coll : List Char → Option Char
  cls : List Char → Option (Char → Bool)
  equiv : List Char → Option (Char → Bool)

variable {loc : Locale} {fold : Char → Char}

/-! ### Bracket expressions -/

/-- A character of a bracket expression, as itself or by its name in `[.name.]`. -/
inductive Point where
  | char (c : Char)
  | coll (name : List Char)
deriving DecidableEq

def Point.text : Point → List Char
  | char c => [c]
  | coll name => '[' :: '.' :: (name ++ ['.', ']'])

def Point.value (loc : Locale) : Point → Option Char
  | char c => some c
  | coll name => loc.coll name

inductive Element where
  | point (p : Point)
  | range (lo hi : Point)
  | cls (name : List Char)
  | equiv (name : List Char)
deriving DecidableEq

def Element.text : Element → List Char
  | point p => p.text
  | range lo hi => lo.text ++ '-' :: hi.text
  | cls name => '[' :: ':' :: (name ++ [':', ']'])
  | equiv name => '[' :: '=' :: (name ++ ['=', ']'])

def Element.Has (loc : Locale) : Element → Char → Prop
  | point p, c => p.value loc = some c
  | range lo hi, c => ∃ l h, lo.value loc = some l ∧ hi.value loc = some h ∧ l ≤ c ∧ c ≤ h
  | cls name, c => ∃ p, loc.cls name = some p ∧ p c = true
  | equiv name, c => ∃ p, loc.equiv name = some p ∧ p c = true

def elementsText (es : List Element) : List Char := es.flatMap Element.text

/-- A `[` in front of the text does not stand for itself. -/
def OpensName (text : List Char) : Prop := text.head? = some '.' ∨ text.head? = some ':' ∨ text.head? = some '='

/-- The elements of a bracket expression, where `first` says that they begin it: `]` stands for itself only as the first
    character, and `-` only as the first or the last one, or as the end of a range. -/
inductive Listed (loc : Locale) : Bool → List Element → Prop where
  | nil {first : Bool} : Listed loc first []
  | char {first : Bool} {c : Char} {es : List Element} (hclose : c = ']' → first = true)
    (hdash : c = '-' → first = true ∨ es = []) (hopen : c = '[' → ¬ OpensName (elementsText es)) (hes : Listed loc false es) :
    Listed loc first (.point (.char c) :: es)
  | coll {first : Bool} {name : List Char} {c : Char} {es : List Element} (hname : loc.coll name = some c)
    (hes : Listed loc false es) : Listed loc first (.point (.coll name) :: es)
  | range {first : Bool} {lo hi : Point} {l h : Char} {es : List Element} (hlo : lo.value loc = some l)
    (hhi : hi.value loc = some h) (hle : l ≤ h) (hclose : lo = .char ']' → first = true)
    (hdash : lo = .char '-' → first = true) (hend : hi ≠ .char ']')
    (hopen : hi = .char '[' → ¬ OpensName (elementsText es)) (hes : Listed loc false es) :
    Listed loc first (.range lo hi :: es)
  | cls {first : Bool} {name : List Char} {p : Char → Bool} {es : List Element} (hname : loc.cls name = some p)
    (hes : Listed loc false es) : Listed loc first (.cls name :: es)
  | equiv {first : Bool} {name : List Char} {p : Char → Bool} {es : List Element} (hname : loc.equiv name = some p)
    (hes : Listed loc false es) : Listed loc first (.equiv name :: es)

/-- The character is one that a bracket expression takes, `[^...]` if `neg`. -/
def BracketTakes (loc : Locale) (fold : Char → Char) (neg : Bool) (es : List Element) (d : Char) : Prop :=
  (∃ e ∈ es, ∃ c, e.Has loc c ∧ fold c = fold d) ↔ neg = false

/-! ### Tokens -/

inductive Dup where
  | star
  | plus
  | opt
  /-- `{lo}`, or with a comma and what is behind it. -/
  | interval (lo : List Char) (hi : Option (List Char))
deriving DecidableEq

def Dup.text : Dup → List Char
  | star => ['*']
  | plus => ['+']
  | opt => ['?']
  | interval lo none => '{' :: (lo ++ ['}'])
  | interval lo (some hi) => '{' :: (lo ++ ',' :: (hi ++ ['}']))

def number (digits : List Char) : Nat := digits.foldl (fun n c => 10 * n + (c.toNat - '0'.toNat)) 0

/-- The least and the greatest number of repetitions. -/
def Dup.bounds : Dup → Nat × Option Nat
  | star => (0, none)
  | plus => (1, none)
  | opt => (0, some 1)
  | interval lo none => (number lo, some (number lo))
  | interval lo (some []) => (number lo, none)
  | interval lo (some hi) => (number lo, some (number hi))

def Dup.WellFormed : Dup → Prop
  | interval lo hi => lo ≠ [] ∧ (∀ c ∈ lo, c.isDigit = true) ∧ ∀ hi' ∈ hi, ∀ c ∈ hi', c.isDigit = true
  | _ => True

inductive Token where
  | char (c : Char)
  | quoted (c : Char)
  | any
  | bracket (neg : Bool) (es : List Element)
  | bol
  | eol
  | lparen
  | rparen
  | bar
  | dup (d : Dup)
deriving DecidableEq

def bracketText (neg : Bool) (es : List Element) : List Char :=
  '[' :: ((if neg then ['^'] else []) ++ (elementsText es ++ [']']))

def Token.text : Token → List Char
  | char c => [c]
  | quoted c => ['\\', c]
  | any => ['.']
  | bracket neg es => bracketText neg es
  | bol => ['^']
  | eol => ['$']
  | lparen => ['(']
  | rparen => [')']
  | bar => ['|']
  | dup d => d.text

def special : List Char := ['^', '.', '[', '$', '(', ')', '|', '*', '+', '?', '{', '\\']

def Token.WellFormed (loc : Locale) : Token → Prop
  | char c => c ∉ special
  | quoted c => c ∈ special ∨ c = ']' ∨ c = '}'
  | bracket neg es => es ≠ [] ∧ Listed loc true es ∧ (neg = false → (elementsText es).head? ≠ some '^')
  | dup d => d.WellFormed
  | _ => True

/-- The text of an expression, and its tokens. -/
structure Spells (loc : Locale) (ts : List Token) (text : List Char) : Prop where
  wellFormed : ∀ t ∈ ts, t.WellFormed loc
  text_eq : text = ts.flatMap Token.text

theorem Token.text_ne_nil {t : Token} : t.text ≠ [] := by
  match t with
  | .dup (.interval _ none) | .dup (.interval _ (some _)) => simp [Token.text, Dup.text]
  | .char _ | .quoted _ | .any | .bracket _ _ | .bol | .eol | .lparen | .rparen | .bar | .dup .star | .dup .plus
  | .dup .opt => simp [Token.text, Dup.text, bracketText]

theorem tokensText_eq_nil {ts : List Token} : ts.flatMap Token.text = [] ↔ ts = [] := by
  cases ts with
  | nil => simp
  | cons t ts => simp [Token.text_ne_nil]

/-- A `*` or `^` in front of a token is a token itself. -/
theorem Token.eq_of_head {t : Token} (h : t.WellFormed loc) :
    (t.text.head? = some '*' → t = .dup .star) ∧ (t.text.head? = some '^' → t = .bol) := by
  match t with
  | .char c =>
    constructor
    · intro hhead
      obtain rfl : c = '*' := by simpa [Token.text] using hhead
      simp [Token.WellFormed, special] at h
    · intro hhead
      obtain rfl : c = '^' := by simpa [Token.text] using hhead
      exact absurd List.mem_cons_self h
  | .dup (.interval _ none) | .dup (.interval _ (some _)) => simp [Token.text, Dup.text]
  | .quoted _ | .any | .bracket _ _ | .bol | .eol | .lparen | .rparen | .bar | .dup .star | .dup .plus | .dup .opt =>
    simp [Token.text, Dup.text, bracketText]

/-! ### Expressions -/

inductive Regex where
  | char (c : Char)
  | any
  | bracket (neg : Bool) (es : List Element)
  | bol
  | eol
  | cat (r s : Regex)
  | alt (r s : Regex)
  | dup (r : Regex) (d : Dup)

inductive Level where
  | ere
  | branch
  | expression

/-- The grammar. -/
inductive Parses : Level → List Token → Regex → Prop where
  | char {c : Char} : Parses .expression [.char c] (.char c)
  | quoted {c : Char} : Parses .expression [.quoted c] (.char c)
  | any : Parses .expression [.any] .any
  | bracket {neg : Bool} {es : List Element} : Parses .expression [.bracket neg es] (.bracket neg es)
  | bol : Parses .expression [.bol] .bol
  | eol : Parses .expression [.eol] .eol
  | group {ts : List Token} {r : Regex} (h : Parses .ere ts r) : Parses .expression (.lparen :: (ts ++ [.rparen])) r
  | dup {ts : List Token} {r : Regex} {d : Dup} (h : Parses .expression ts r) :
    Parses .expression (ts ++ [.dup d]) (.dup r d)
  | expression {ts : List Token} {r : Regex} (h : Parses .expression ts r) : Parses .branch ts r
  | cat {ts us : List Token} {r s : Regex} (hr : Parses .branch ts r) (hs : Parses .expression us s) :
    Parses .branch (ts ++ us) (.cat r s)
  | branch {ts : List Token} {r : Regex} (h : Parses .branch ts r) : Parses .ere ts r
  | alt {ts us : List Token} {r s : Regex} (hr : Parses .ere ts r) (hs : Parses .branch us s) :
    Parses .ere (ts ++ .bar :: us) (.alt r s)

/-- What matches some times in a row, each time between what is before and behind it. -/
def Repeats (M : List Char → List Char → List Char → Prop) : Nat → List Char → List Char → List Char → Prop
  | 0, _, mid, _ => mid = []
  | n + 1, before, mid, after =>
    ∃ m k, mid = m ++ k ∧ M before m (k ++ after) ∧ Repeats M n (before ++ m) k after

/-- The expression matches `mid` between what is before and behind it. -/
def Regex.Matches (loc : Locale) (fold : Char → Char) : Regex → List Char → List Char → List Char → Prop
  | .char c, _, mid, _ => ∃ d, mid = [d] ∧ fold c = fold d
  | .any, _, mid, _ => ∃ d, mid = [d]
  | .bracket neg es, _, mid, _ => ∃ d, mid = [d] ∧ BracketTakes loc fold neg es d
  | .bol, before, mid, _ => mid = [] ∧ before = []
  | .eol, _, mid, after => mid = [] ∧ after = []
  | .cat r s, before, mid, after =>
    ∃ m k, mid = m ++ k ∧ r.Matches loc fold before m (k ++ after) ∧ s.Matches loc fold (before ++ m) k after
  | .alt r s, before, mid, after => r.Matches loc fold before mid after ∨ s.Matches loc fold before mid after
  | .dup r d, before, mid, after =>
    ∃ n, d.bounds.1 ≤ n ∧ (∀ k ∈ d.bounds.2, n ≤ k) ∧ Repeats (r.Matches loc fold) n before mid after

/-- The search for the expression in a string succeeds. -/
def Regex.Found (loc : Locale) (fold : Char → Char) (r : Regex) (s : List Char) : Prop :=
  ∃ before mid after, s = before ++ mid ++ after ∧ r.Matches loc fold before mid after

/-! ### Expressions without choice

An expression that has neither a group nor an alternative, and nothing repeated but `.*`. -/

inductive Piece where
  | char (c : Char)
  | any
  | bracket (neg : Bool) (es : List Element)
  | gap
  | bol
  | eol
deriving DecidableEq

inductive Flat : List Token → List Piece → Prop where
  | nil : Flat [] []
  | char {c : Char} {ts : List Token} {ps : List Piece} (h : Flat ts ps) : Flat (.char c :: ts) (.char c :: ps)
  | quoted {c : Char} {ts : List Token} {ps : List Piece} (h : Flat ts ps) : Flat (.quoted c :: ts) (.char c :: ps)
  | any {ts : List Token} {ps : List Piece} (h : Flat ts ps) : Flat (.any :: ts) (.any :: ps)
  | bracket {neg : Bool} {es : List Element} {ts : List Token} {ps : List Piece} (h : Flat ts ps) :
    Flat (.bracket neg es :: ts) (.bracket neg es :: ps)
  | gap {ts : List Token} {ps : List Piece} (h : Flat ts ps) : Flat (.any :: .dup .star :: ts) (.gap :: ps)
  | bol {ts : List Token} {ps : List Piece} (h : Flat ts ps) : Flat (.bol :: ts) (.bol :: ps)
  | eol {ts : List Token} {ps : List Piece} (h : Flat ts ps) : Flat (.eol :: ts) (.eol :: ps)

/-- The characters that a piece takes one of. -/
def Piece.Takes (loc : Locale) (fold : Char → Char) : Piece → Char → Prop
  | char c, d => fold c = fold d
  | any, _ => True
  | bracket neg es, d => BracketTakes loc fold neg es d
  | _, _ => False

def Piece.Matches (loc : Locale) (fold : Char → Char) : Piece → List Char → List Char → List Char → Prop
  | gap, _, _, _ => True
  | bol, before, mid, _ => mid = [] ∧ before = []
  | eol, _, mid, after => mid = [] ∧ after = []
  | p, _, mid, _ => ∃ d, mid = [d] ∧ p.Takes loc fold d

def MatchesAll (loc : Locale) (fold : Char → Char) : List Piece → List Char → List Char → List Char → Prop
  | [], _, mid, _ => mid = []
  | p :: ps, before, mid, after =>
    ∃ m k, mid = m ++ k ∧ p.Matches loc fold before m (k ++ after) ∧ MatchesAll loc fold ps (before ++ m) k after

variable {ts us : List Token} {ps qs : List Piece} {r : Regex} {lvl : Level} {before mid after : List Char}

theorem matchesAll_append :
    MatchesAll loc fold (ps ++ qs) before mid after ↔
      ∃ m k, mid = m ++ k ∧ MatchesAll loc fold ps before m (k ++ after) ∧ MatchesAll loc fold qs (before ++ m) k after := by
  induction ps generalizing before mid with
  | nil =>
    constructor
    · exact fun h => ⟨[], mid, rfl, rfl, by rwa [List.append_nil]⟩
    · rintro ⟨m, k, rfl, rfl, h⟩
      rwa [List.append_nil] at h
  | cons p ps ih =>
    constructor
    · rintro ⟨m, k, rfl, hp, h⟩
      obtain ⟨m', k', rfl, hps, hqs⟩ := ih.1 h
      rw [List.append_assoc] at hp hqs
      exact ⟨m ++ m', k', (List.append_assoc ..).symm, ⟨m, m', rfl, hp, hps⟩, hqs⟩
    · rintro ⟨_, k', rfl, ⟨m, m', rfl, hp, hps⟩, hqs⟩
      rw [← List.append_assoc] at hp hqs
      exact ⟨m, m' ++ k', List.append_assoc .., hp, ih.2 ⟨m', k', rfl, hps, hqs⟩⟩

/-- What parses does not begin with a repetition. -/
theorem Parses.head_ne (h : Parses lvl ts r) : ∃ t ts', ts = t :: ts' ∧ ∀ d, t ≠ .dup d := by
  induction h with
  | char => exact ⟨_, _, rfl, by simp⟩
  | quoted => exact ⟨_, _, rfl, by simp⟩
  | any => exact ⟨_, _, rfl, by simp⟩
  | bracket => exact ⟨_, _, rfl, by simp⟩
  | bol => exact ⟨_, _, rfl, by simp⟩
  | eol => exact ⟨_, _, rfl, by simp⟩
  | group => exact ⟨_, _, rfl, by simp⟩
  | dup _ ih =>
    obtain ⟨t, ts', rfl, ht⟩ := ih
    exact ⟨t, _, rfl, ht⟩
  | expression _ ih => exact ih
  | cat _ _ ih =>
    obtain ⟨t, ts', rfl, ht⟩ := ih
    exact ⟨t, _, rfl, ht⟩
  | branch _ ih => exact ih
  | alt _ _ ih =>
    obtain ⟨t, ts', rfl, ht⟩ := ih
    exact ⟨t, _, rfl, ht⟩

theorem Flat.not_mem (h : Flat ts ps) : .lparen ∉ ts ∧ .bar ∉ ts := by
  induction h <;> simp_all

/-- Only `.` is repeated, and by `*`. -/
theorem Flat.dup {d : Dup} (h : Flat (ts ++ [.dup d]) ps) : d = .star ∧ ∃ ts', ts = ts' ++ [.any] := by
  generalize hus : ts ++ [Token.dup d] = us at h
  induction h generalizing ts with
  | nil => simp at hus
  | @gap us _ h ih =>
    match ts, hus with
    | [t], hus =>
      simp only [List.cons_append, List.nil_append, List.cons.injEq, Token.dup.injEq] at hus
      exact ⟨hus.2.1, [], by rw [hus.1]; rfl⟩
    | t :: t' :: ts, hus =>
      obtain ⟨hd, ts', rfl⟩ := ih (List.cons.inj (List.cons.inj hus).2).2
      exact ⟨hd, t :: t' :: ts', rfl⟩
  | char h ih | quoted h ih | any h ih | bracket h ih | bol h ih | eol h ih =>
    cases ts with
    | nil => simp at hus
    | cons t ts =>
      obtain ⟨hd, ts', rfl⟩ := ih (List.cons.inj hus).2
      exact ⟨hd, t :: ts', rfl⟩

theorem Flat.append_inv (h : Flat (ts ++ us) ps) (hus : ∀ t ∈ us.head?, ∀ d, t ≠ .dup d) :
    ∃ p q, ps = p ++ q ∧ Flat ts p ∧ Flat us q := by
  generalize hvs : ts ++ us = vs at h
  induction h generalizing ts with
  | nil =>
    obtain ⟨rfl, rfl⟩ := List.append_eq_nil_iff.1 hvs
    exact ⟨[], [], rfl, .nil, .nil⟩
  | gap h ih =>
    match ts with
    | [] => exact ⟨[], _, rfl, .nil, by subst hvs; exact h.gap⟩
    | [t] =>
      simp only [List.cons_append, List.nil_append, List.cons.injEq] at hvs
      exact absurd rfl (hus _ (by rw [hvs.2]; rfl) _)
    | t :: t' :: ts =>
      simp only [List.cons_append, List.cons.injEq] at hvs
      obtain ⟨rfl, rfl, hvs⟩ := hvs
      obtain ⟨p, q, rfl, hp, hq⟩ := ih hvs
      exact ⟨_, q, rfl, hp.gap, hq⟩
  | char h ih | quoted h ih | any h ih | bracket h ih | bol h ih | eol h ih =>
    cases ts with
    | nil => exact ⟨[], _, rfl, .nil, by subst hvs; constructor; exact h⟩
    | cons t ts =>
      simp only [List.cons_append, List.cons.injEq] at hvs
      obtain ⟨rfl, hvs⟩ := hvs
      obtain ⟨p, q, rfl, hp, hq⟩ := ih hvs
      exact ⟨_ :: p, q, rfl, by constructor; exact hp, hq⟩

theorem matchesAll_one {p : Piece} : MatchesAll loc fold [p] before mid after ↔ p.Matches loc fold before mid after := by
  constructor
  · rintro ⟨m, k, rfl, hp, rfl⟩
    rwa [List.append_nil]
  · exact fun hp => ⟨mid, [], (List.append_nil _).symm, hp, rfl⟩

/-- Any text is `.` some times in a row. -/
theorem repeats_any : Repeats (Regex.any.Matches loc fold) mid.length before mid after := by
  induction mid generalizing before with
  | nil => rfl
  | cons d mid ih => exact ⟨[d], mid, rfl, ⟨d, rfl⟩, ih⟩

/-- One that ends with `.` is nothing else. -/
theorem Parses.eq_any (h : Parses .expression (ts ++ [.any]) r) : ts = [] ∧ r = .any := by
  generalize hus : ts ++ [Token.any] = us at h
  have hlast : us.getLast? = some .any := by rw [← hus, List.getLast?_concat]
  cases h with
  | any =>
    obtain ⟨rfl, -⟩ | ⟨-, h⟩ := List.append_eq_singleton_iff.1 hus
    · exact ⟨rfl, rfl⟩
    · cases h
  | group =>
    rw [← List.cons_append, List.getLast?_concat] at hlast
    cases hlast
  | dup =>
    rw [List.getLast?_concat] at hlast
    cases hlast
  | char | quoted | bracket | bol | eol => cases hlast

/-- Without choice the expression matches what its pieces match in their order. -/
theorem Parses.matches_iff (h : Parses lvl ts r) (hflat : Flat ts ps) :
    r.Matches loc fold before mid after ↔ MatchesAll loc fold ps before mid after := by
  induction h generalizing ps before mid after with
  | char =>
    cases hflat with
    | char h =>
      cases h
      rw [matchesAll_one]
      rfl
  | quoted =>
    cases hflat with
    | quoted h =>
      cases h
      rw [matchesAll_one]
      rfl
  | any =>
    cases hflat with
    | any h =>
      cases h
      rw [matchesAll_one]
      exact ⟨fun ⟨d, hd⟩ => ⟨d, hd, trivial⟩, fun ⟨d, hd, _⟩ => ⟨d, hd⟩⟩
  | bracket =>
    cases hflat with
    | bracket h =>
      cases h
      rw [matchesAll_one]
      rfl
  | bol =>
    cases hflat with
    | bol h =>
      cases h
      rw [matchesAll_one]
      rfl
  | eol =>
    cases hflat with
    | eol h =>
      cases h
      rw [matchesAll_one]
      rfl
  | group => exact absurd List.mem_cons_self hflat.not_mem.1
  | alt => exact absurd (List.mem_append_right _ List.mem_cons_self) hflat.not_mem.2
  | @dup ts r d h ih =>
    -- What is repeated ends with `.`, so it is nothing else.
    obtain ⟨rfl, ts', rfl⟩ := hflat.dup
    obtain ⟨rfl, rfl⟩ := h.eq_any
    cases hflat with
    | any h => cases h
    | gap h =>
      cases h
      rw [matchesAll_one]
      exact iff_of_true ⟨mid.length, Nat.zero_le _, by simp [Dup.bounds], repeats_any⟩ trivial
  | expression _ ih => exact ih hflat
  | cat _ hs ihr ihs =>
    obtain ⟨t, us', rfl, ht⟩ := hs.head_ne
    obtain ⟨p, q, rfl, hp, hq⟩ := hflat.append_inv (by simpa using ht)
    simp only [matchesAll_append, ← ihr hp, ← ihs hq]
    rfl
  | branch _ ih => exact ih hflat

/-! ### The shortest match

Where nothing is taken by the gaps, a match has one character for each piece that takes one. -/

def Piece.takesOne : Piece → Bool
  | gap | bol | eol => false
  | _ => true

def ones (ps : List Piece) : List Piece := ps.filter Piece.takesOne

theorem Piece.matches_of_takesOne {p : Piece} (hp : p.takesOne = true) :
    p.Matches loc fold before mid after ↔ ∃ d, mid = [d] ∧ p.Takes loc fold d := by
  cases p with
  | gap | bol | eol => cases hp
  | char | any | bracket => rfl

/-- A match gives the shortest one: without what the gaps have, and as near to the ends of the string. -/
theorem MatchesAll.shortest {before' after' : List Char} (h : MatchesAll loc fold ps before mid after)
    (hbefore : before = [] → before' = []) (hafter : after = [] → after' = []) :
    ∃ cs, List.Forall₂ (Piece.Takes loc fold) (ones ps) cs ∧ MatchesAll loc fold ps before' cs after' ∧
      (mid = [] → cs = []) := by
  induction ps generalizing before mid before' with
  | nil => exact ⟨[], .nil, rfl, fun _ => rfl⟩
  | cons p ps ih =>
    obtain ⟨m, k, rfl, hp, hps⟩ := h
    by_cases hone : p.takesOne = true
    · obtain ⟨d, rfl, hd⟩ := (Piece.matches_of_takesOne hone).1 hp
      obtain ⟨cs, htakes, hcs, -⟩ := @ih (before ++ [d]) k (before' ++ [d]) hps (by simp)
      refine ⟨d :: cs, ?_, ⟨[d], cs, rfl, (Piece.matches_of_takesOne hone).2 ⟨d, rfl, hd⟩, hcs⟩, by simp⟩
      rw [ones, List.filter_cons_of_pos hone]
      exact .cons hd htakes
    · obtain ⟨cs, htakes, hcs, hempty⟩ := @ih (before ++ m) k before' hps (fun h => hbefore (List.append_eq_nil_iff.1 h).1)
      refine ⟨cs, ?_, ⟨[], cs, rfl, ?_, by rwa [List.append_nil]⟩, fun h => hempty (List.append_eq_nil_iff.1 h).2⟩
      · rwa [ones, List.filter_cons_of_neg hone]
      · -- What is an anchor stays one: nothing comes before it or behind it that was not there.
        cases p with
        | gap => trivial
        | bol => exact ⟨rfl, hbefore hp.2⟩
        | eol =>
          obtain ⟨hk, hafter'⟩ := List.append_eq_nil_iff.1 hp.2
          exact ⟨rfl, by rw [hempty hk, hafter hafter']; rfl⟩
        | char | any | bracket => exact absurd rfl hone

/-- The element is nowhere but at the end. -/
def OnlyLast {α : Type} (a : α) : List α → Prop
  | [] => True
  | b :: l => (b = a → l = []) ∧ OnlyLast a l

/-- With no anchors but `$` at the end, one character for each piece that takes one is a match. -/
theorem matchesAll_of_takes {cs : List Char} (h : List.Forall₂ (Piece.Takes loc fold) (ones ps) cs) (hbol : .bol ∉ ps)
    (heol : OnlyLast .eol ps) : MatchesAll loc fold ps before cs [] := by
  induction ps generalizing before cs with
  | nil => exact List.forall₂_nil_left_iff.1 h
  | cons p ps ih =>
    have hbol' : Piece.bol ∉ ps := fun hmem => hbol (List.mem_cons_of_mem _ hmem)
    by_cases hone : p.takesOne = true
    · rw [ones, List.filter_cons_of_pos hone] at h
      obtain ⟨d, cs, hd, hcs, rfl⟩ := List.forall₂_cons_left_iff.1 h
      exact ⟨[d], cs, rfl, (Piece.matches_of_takesOne hone).2 ⟨d, rfl, hd⟩, ih hcs hbol' heol.2⟩
    · rw [ones, List.filter_cons_of_neg hone] at h
      refine ⟨[], cs, rfl, ?_, ih h hbol' heol.2⟩
      cases p with
      | gap => trivial
      | bol => exact absurd List.mem_cons_self hbol
      | eol =>
        obtain rfl := heol.1 rfl
        exact ⟨rfl, by rw [List.forall₂_nil_left_iff.1 h]; rfl⟩
      | char | any | bracket => exact absurd rfl hone

theorem matchesAll_of_takes_tail {cs : List Char} (h : List.Forall₂ (Piece.Takes loc fold) (ones ps) cs)
    (hbol : .bol ∉ ps.tail) (heol : OnlyLast .eol ps) : MatchesAll loc fold ps [] cs [] := by
  cases ps with
  | nil => exact matchesAll_of_takes h List.not_mem_nil heol
  | cons p ps =>
    by_cases hp : p = .bol
    · subst hp
      exact ⟨[], cs, rfl, ⟨rfl, rfl⟩, matchesAll_of_takes h hbol heol.2⟩
    · exact matchesAll_of_takes h (by simpa [Ne.symm hp] using hbol) heol

/-! ### Tokens and pieces -/

theorem Flat.eq_nil_iff (h : Flat ts ps) : ts = [] ↔ ps = [] := by
  cases h <;> simp

theorem Flat.bol_mem (h : Flat ts ps) : .bol ∈ ts ↔ .bol ∈ ps := by
  induction h <;> simp_all

theorem Flat.bol_mem_tail (h : Flat ts ps) : .bol ∈ ts.tail ↔ .bol ∈ ps.tail := by
  cases h with
  | nil => simp
  | gap h => simpa using h.bol_mem
  | char h | quoted h | any h | bracket h | bol h | eol h => exact h.bol_mem

theorem Flat.bracket_mem {neg : Bool} {es : List Element} (h : Flat ts ps) : .bracket neg es ∈ ts ↔ .bracket neg es ∈ ps := by
  induction h <;> simp_all

theorem Flat.onlyLast_eol (h : Flat ts ps) : OnlyLast .eol ts ↔ OnlyLast .eol ps := by
  induction h with
  | nil => rfl
  | char h ih | quoted h ih | any h ih | bracket h ih | bol h ih | gap h ih => simp [OnlyLast, ih]
  | eol h ih => simp only [OnlyLast, ih, h.eq_nil_iff, true_imp_iff]

theorem Flat.eq_bol (h : Flat ts ps) : ts = [.bol] ↔ ps = [.bol] := by
  cases h with
  | bol h => simp [h.eq_nil_iff]
  | nil | char | quoted | any | bracket | gap | eol => simp

end Ere

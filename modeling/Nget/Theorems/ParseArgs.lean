import Nget.ArgParser

/-! Arguments that are written between double quotes. Inside the quotes every character is added as it stands, a quote
    behind a backslash without the backslash, so that an argument is read back; but one that is empty is not added, at
    the blank behind it or at the end. -/

namespace Nget
open CString

variable {ignorecomments : Bool} {strs argl : List Text} {curpart rest s sep line : Text}

/-- The string with its double quotes escaped. -/
def escaped : Text → Text
  | [] => []
  | c :: s => if c = '"' then '\\' :: '"' :: escaped s else c :: escaped s

/-- The string between double quotes. -/
def quoted (s : Text) : Text := '"' :: (escaped s ++ ['"'])

/-- The strings between double quotes, with one or more blanks between any two. -/
inductive Written : List Text → Text → Prop where
  | nil : Written [] []
  | one {s : Text} : Written [s] (quoted s)
  | cons {s t sep line : Text} {strs : List Text} (hsep : sep ≠ []) (hblank : ∀ c ∈ sep, isspace c = true)
    (rest : Written (t :: strs) line) : Written (s :: t :: strs) (quoted s ++ (sep ++ line))

/-- A string that a line can have: without NUL or line ends, and with no backslash before a quote character or at the
    end. -/
def Quotable : Text → Prop
  | [] => True
  | c :: s => c ≠ nul ∧ c ≠ '\n' ∧ c ≠ '\r' ∧ (c = '\\' → s ≠ [] ∧ s.head? ≠ some '"' ∧ s.head? ≠ some '\'') ∧ Quotable s

/-! ### Inside the quotes -/

theorem parseargsLoop_escaped : ∀ (s curpart : Text), Quotable s →
    parseargsLoop ignorecomments (escaped s ++ '"' :: rest) curpart (some '"') false argl =
      parseargsLoop ignorecomments rest (curpart ++ s) none false argl
  | [], curpart, _ => by simp [escaped, parseargsLoop]
  | c :: s, curpart, ⟨_, _, _, hesc, hs⟩ => by
    have happend : ∀ s, curpart ++ c :: s = curpart ++ [c] ++ s := fun s => List.append_cons curpart c s
    by_cases hquote : c = '"'
    · subst hquote
      rw [happend, ← parseargsLoop_escaped s _ hs]
      simp [escaped, parseargsLoop]
    by_cases hback : c = '\\'
    · -- A backslash takes the character behind it with it.
      subst hback
      obtain ⟨hne, hdouble, hsingle⟩ := hesc rfl
      cases s with
      | nil => exact absurd rfl hne
      | cons d s =>
        have hd : d ≠ '"' ∧ d ≠ '\'' := ⟨fun h => hdouble (h ▸ rfl), fun h => hsingle (h ▸ rfl)⟩
        have ih := parseargsLoop_escaped s (curpart ++ ['\\', d]) hs.2.2.2.2
        rw [show curpart ++ '\\' :: d :: s = curpart ++ ['\\', d] ++ s by simp, ← ih]
        simp [escaped, parseargsLoop, hd]
    · rw [happend, ← parseargsLoop_escaped s _ hs]
      simp only [escaped, parseargsLoop, List.cons_append, hquote, hback, if_false]
      simp [Ne.symm hquote]

theorem parseargsLoop_quoted (hs : Quotable s) :
    parseargsLoop ignorecomments (quoted s ++ rest) curpart none false argl =
      parseargsLoop ignorecomments rest (curpart ++ s) none false argl := by
  rw [← parseargsLoop_escaped s curpart hs]
  simp [quoted, parseargsLoop, isspace]

/-! ### The line -/

/-- A blank ends the argument that has begun; further blanks add nothing. -/
theorem parseargsLoop_blanks (hsep : sep ≠ []) (hblank : ∀ c ∈ sep, isspace c = true) :
    parseargsLoop ignorecomments (sep ++ rest) curpart none false argl =
      parseargsLoop ignorecomments rest [] none false (argl ++ [curpart].filter (· ≠ [])) := by
  have hskip : ∀ (sep : Text) (argl : List Text), (∀ c ∈ sep, isspace c = true) →
      parseargsLoop ignorecomments (sep ++ rest) [] none false argl = parseargsLoop ignorecomments rest [] none false argl := by
    intro sep argl hblank
    induction sep with
    | nil => rfl
    | cons c sep ih =>
      rw [← ih (fun d hd => hblank d (List.mem_cons_of_mem _ hd))]
      simp [parseargsLoop, hblank c List.mem_cons_self]
  obtain ⟨c, sep, rfl⟩ := List.exists_cons_of_ne_nil hsep
  rw [← hskip sep _ (fun d hd => hblank d (List.mem_cons_of_mem _ hd))]
  by_cases hcur : curpart = []
  · simp [parseargsLoop, hblank c List.mem_cons_self, hcur]
  · simp [parseargsLoop, hblank c List.mem_cons_self, hcur]

/-- The parsed arguments are the written ones that are not empty. -/
theorem Written.parseargsLoop_eq (hw : Written strs line) (hq : ∀ s ∈ strs, Quotable s) :
    parseargsLoop ignorecomments line [] none false argl = (.ok (), argl ++ strs.filter (· ≠ [])) := by
  induction hw generalizing argl with
  | nil => simp [parseargsLoop]
  | @one s =>
    rw [← List.append_nil (quoted s), parseargsLoop_quoted (hq s List.mem_cons_self)]
    by_cases hs : s = []
    · simp [parseargsLoop, hs]
    · simp [parseargsLoop, hs]
  | @cons s t sep line strs hsep hblank _ ih =>
    rw [parseargsLoop_quoted (hq s List.mem_cons_self), parseargsLoop_blanks hsep hblank,
      ih (fun u hu => hq u (List.mem_cons_of_mem _ hu)), List.nil_append, List.append_assoc, ← List.filter_append]
    rfl

theorem Quotable.nul_not_mem : ∀ {s : Text}, Quotable s → nul ∉ escaped s
  | [], _ => by simp [escaped]
  | c :: s, ⟨hc, _, _, _, hs⟩ => by
    have ih := Quotable.nul_not_mem hs
    by_cases hquote : c = '"'
    · simpa [escaped, hquote, nul] using ih
    · simpa [escaped, hquote, Ne.symm hc] using ih

theorem Written.nul_not_mem (hw : Written strs line) (hq : ∀ s ∈ strs, Quotable s) : nul ∉ line := by
  have hquoted : ∀ s, Quotable s → nul ∉ quoted s := fun s hs hmem => by
    have := hs.nul_not_mem
    simp [quoted, nul] at hmem this
    exact this hmem
  induction hw with
  | nil => simp
  | one => exact hquoted _ (hq _ List.mem_cons_self)
  | cons hsep hblank _ ih =>
    simp only [List.mem_append, not_or]
    exact ⟨hquoted _ (hq _ List.mem_cons_self), fun hmem => absurd (hblank _ hmem) (by decide),
      ih (fun u hu => hq u (List.mem_cons_of_mem _ hu))⟩

theorem Written.parseargs_eq (hw : Written strs line) (hq : ∀ s ∈ strs, Quotable s) :
    parseargs argl line ignorecomments = (.ok (), argl ++ strs.filter (· ≠ [])) := by
  have hcstr : cstr line = line := List.takeWhile_eq_self_iff.2 fun c hc =>
    decide_eq_true fun heq => hw.nul_not_mem hq (heq ▸ hc)
  rw [parseargs, hcstr]
  exact hw.parseargsLoop_eq hq

/-- The strings come back, in order and none missing, exactly when none is empty. -/
theorem parseargs_quoted_iff (hw : Written strs line) (hq : ∀ s ∈ strs, Quotable s) :
    parseargs argl line ignorecomments = (.ok (), argl ++ strs) ↔ ∀ s ∈ strs, s ≠ [] := by
  rw [hw.parseargs_eq hq, Prod.mk.injEq, and_iff_right rfl, List.append_cancel_left_eq, List.filter_eq_self]
  simp

theorem parseargs_quoted_iff_two :
    parseargs [] (quoted ['a', ' ', 'b'] ++ (['\t', ' '] ++ quoted ['x', '"', 'y'])) true =
      (.ok (), [['a', ' ', 'b'], ['x', '"', 'y']]) :=
  (parseargs_quoted_iff (.cons (List.cons_ne_nil _ _) (by simp [isspace]) .one) (by simp [Quotable, nul])).2 (by simp)

/-- An empty argument is lost. -/
theorem parseargs_quoted_fails :
    ¬ ∀ (ignorecomments : Bool) (strs : List Text) (line : Text), Written strs line → (∀ s ∈ strs, Quotable s) →
      parseargs [] line ignorecomments = (.ok (), strs) := fun hall =>
  absurd (hall true [[]] _ .one (by simp [Quotable])) (by decide)

end Nget

import Nget.Buffy

/-! Reads of lines. A text is its lines, each up to a line feed or the end, and every read of a line takes the
    first of them: `bgets` gives it without its carriage returns, and `btoks` gives what `split` gives of that. -/

namespace Nget
open CString

/-- The first line of a text. -/
def firstLine (f : Text) : Text := f.takeWhile (· ≠ '\n')

/-- The text behind the first line. -/
def afterLine (f : Text) : Text := (f.dropWhile (· ≠ '\n')).tail

/-- The lines of a text, the last of which may lack its end. -/
def bufLines : Text → List Text
  | [] => []
  | i :: f =>
    if i = '\n' then [] :: bufLines f
    else
      match bufLines f with
      | [] => [[i]]
      | line :: lines => (i :: line) :: lines

/-- A line without its carriage returns. -/
def dropCr (line : Text) : Text := line.filter (· ≠ '\r')

section
variable {f : Text} {c : Char}

@[simp] theorem firstLine_nil : firstLine [] = [] := rfl

@[simp] theorem afterLine_nil : afterLine [] = [] := rfl

@[simp] theorem firstLine_newline : firstLine ('\n' :: f) = [] := by simp [firstLine]

@[simp] theorem afterLine_newline : afterLine ('\n' :: f) = f := by simp [afterLine]

theorem firstLine_cons (hc : c ≠ '\n') : firstLine (c :: f) = c :: firstLine f := by simp [firstLine, hc]

theorem afterLine_cons (hc : c ≠ '\n') : afterLine (c :: f) = afterLine f := by simp [afterLine, hc]

theorem bufLines_eq : ∀ {f : Text}, f ≠ [] → bufLines f = firstLine f :: bufLines (afterLine f)
  | [], h => absurd rfl h
  | c :: f, _ => by
    conv_lhs => rw [bufLines]
    split
    · next hc => simp [hc]
    · next hc =>
      rw [firstLine_cons hc, afterLine_cons hc]
      by_cases hf : f = []
      · simp [hf, bufLines]
      · rw [bufLines_eq hf]

theorem length_afterLine : ∀ {f : Text}, f ≠ [] → (afterLine f).length < f.length
  | [], h => absurd rfl h
  | c :: f, _ => by
    by_cases hc : c = '\n'
    · simp [hc]
    · rw [afterLine_cons hc]
      by_cases hf : f = []
      · simp [hf]
      · exact (length_afterLine hf).trans (Nat.lt_succ_self _)

theorem firstLine_append {line : Text} (hline : '\n' ∉ line) : firstLine (line ++ '\n' :: f) = line := by
  induction line with
  | nil => simp
  | cons c line ih =>
    simp only [List.mem_cons, not_or] at hline
    rw [List.cons_append, firstLine_cons (Ne.symm hline.1), ih hline.2]

theorem afterLine_append {line : Text} (hline : '\n' ∉ line) : afterLine (line ++ '\n' :: f) = f := by
  induction line with
  | nil => simp
  | cons c line ih =>
    simp only [List.mem_cons, not_or] at hline
    rw [List.cons_append, afterLine_cons (Ne.symm hline.1), ih hline.2]

/-- The line that ends with a line feed is the first one. -/
theorem bufLines_append {line : Text} (hline : '\n' ∉ line) : bufLines (line ++ '\n' :: f) = line :: bufLines f := by
  rw [bufLines_eq (by simp), firstLine_append hline, afterLine_append hline]

theorem bufLines_flatMap {lines : List Text} (hlines : ∀ line ∈ lines, '\n' ∉ line) :
    bufLines (lines.flatMap (· ++ ['\n'])) = lines := by
  induction lines with
  | nil => rfl
  | cons line lines ih =>
    rw [List.flatMap_cons, List.append_assoc, List.singleton_append, bufLines_append (hlines line List.mem_cons_self),
      ih fun l hl => hlines l (List.mem_cons_of_mem line hl)]

theorem bufLines_singleton (hf : f ≠ []) (hn : '\n' ∉ f) : bufLines f = [f] := by
  have hall : ∀ c ∈ f, decide (c ≠ '\n') = true := fun c hc => by simpa using fun h : c = '\n' => hn (h ▸ hc)
  rw [bufLines_eq hf, firstLine, afterLine, List.takeWhile_eq_self_iff.mpr hall, List.dropWhile_eq_nil_iff.mpr hall]
  rfl

theorem newline_of_mem_bufLines : ∀ {f line : Text}, line ∈ bufLines f → '\n' ∉ line
  | c :: f, line, h => by
    unfold bufLines at h
    split at h
    · rcases List.mem_cons.mp h with rfl | h
      · simp
      · exact newline_of_mem_bufLines h
    · next hc =>
      have hne : '\n' ≠ c := Ne.symm hc
      split at h
      · rw [List.mem_singleton.mp h]
        simpa using hne
      · next line' lines heq =>
        have ih := @newline_of_mem_bufLines f
        rw [heq] at ih
        rcases List.mem_cons.mp h with rfl | h
        · simpa [hne] using ih List.mem_cons_self
        · exact ih (List.mem_cons_of_mem line' h)

theorem head?_firstLine_eq_dot : (firstLine f).head? = some '.' ↔ f.head? = some '.' := by
  cases f with
  | nil => rfl
  | cons c f =>
    by_cases hc : c = '\n'
    · simp [hc]
    · simp [firstLine_cons hc]

/-! ### What can stand on a line -/

def OneLine (s : Text) : Prop := ∀ c ∈ s, c ≠ '\r' ∧ c ≠ '\n' ∧ c ≠ nul

instance : DecidablePred OneLine := fun s => List.decidableBAll _ s

namespace OneLine
variable {s t : Text}

theorem newline (h : OneLine s) : '\n' ∉ s := fun hm => (h _ hm).2.1 rfl

theorem nul (h : OneLine s) : CString.nul ∉ s := fun hm => (h _ hm).2.2 rfl

theorem cstr (h : OneLine s) : CString.cstr s = s := cstr_of_not_mem h.nul

theorem dropCr (h : OneLine s) : dropCr s = s := List.filter_eq_self.mpr fun c hc => by simpa using (h c hc).1

theorem append (h : OneLine s) (h' : OneLine t) : OneLine (s ++ t) := fun c hc => (List.mem_append.mp hc).elim (h c) (h' c)

theorem cons (hc : c ≠ '\r' ∧ c ≠ '\n' ∧ c ≠ CString.nul) (h : OneLine s) : OneLine (c :: s) := fun _ hd =>
  (List.mem_cons.mp hd).elim (fun heq => heq ▸ hc) (h _)

theorem printUlong (n : UInt64) : OneLine (printUlong n) := fun c hc => by
  have hdigit := isDigit_of_mem_toDigits hc
  refine ⟨?_, ?_, ?_⟩ <;> (rintro rfl; exact absurd hdigit (by decide))

end OneLine

/-! ### `bgets` and `btoks` -/

theorem bgets_eq : ∀ f : Text, bgets f = (dropCr (firstLine f), afterLine f)
  | [] => rfl
  | c :: f => by
    unfold bgets
    rw [bgets_eq f]
    split
    · next hc =>
      have hn : c ≠ '\n' := by
        rw [hc]
        decide
      rw [firstLine_cons hn, afterLine_cons hn]
      simp [dropCr, hc]
    · next hc =>
      split
      · next hn => simp [hn, dropCr]
      · next hn =>
        rw [firstLine_cons hn, afterLine_cons hn]
        simp [dropCr, hc]

theorem bgetsp_eq : bgetsp f = (cstr (dropCr (firstLine f)), afterLine f) := by
  rw [bgetsp, bgets_eq]

theorem length_bgetsp (hf : f ≠ []) : (bgetsp f).2.length < f.length := by
  rw [bgetsp_eq]
  exact length_afterLine hf

/-- The tokens of a line between separators. -/
def splitLine (sep : Char) (line : Text) : List Text := CString.split sep (dropCr line)

/-- The tokens of a line. -/
def tokens (line : Text) : List Text := CString.split '\t' (dropCr line)

section
variable {sep : Char}

theorem splitLine_ne_nil {line : Text} : splitLine sep line ≠ [] := by
  unfold splitLine
  cases dropCr line with
  | nil => simp [CString.split]
  | cons c cs =>
    unfold CString.split
    split
    · simp
    · split <;> simp

theorem splitLine_sep {line : Text} (hsep : sep ≠ '\r') : splitLine sep (sep :: line) = [] :: splitLine sep line := by
  simp [splitLine, dropCr, CString.split, hsep]

theorem splitLine_cr {line : Text} : splitLine sep ('\r' :: line) = splitLine sep line := by
  simp [splitLine, dropCr]

theorem splitLine_cons {line : Text} (hne : c ≠ sep) (hcr : c ≠ '\r') :
    splitLine sep (c :: line) = (splitLine sep line).modifyHead (c :: ·) := by
  have hnil := @splitLine_ne_nil sep line
  unfold splitLine at hnil ⊢
  rw [dropCr, List.filter_cons_of_pos (by simpa using hcr), ← dropCr]
  cases h : CString.split sep (dropCr line) with
  | nil => exact absurd h hnil
  | cons t ts => simp [CString.split, hne, h]

theorem take_modifyHead {α : Type} {l : List α} {g : α → α} {n : Nat} (hn : 0 < n) :
    (l.modifyHead g).take n = (l.take n).modifyHead g := by
  obtain ⟨n, rfl⟩ := Nat.exists_eq_add_of_lt hn
  cases l <;> simp

/-- From `num` tokens on, the loop counts the tokens of the rest of the line and keeps them up to the
    `max`th. -/
theorem btoksLoop_eq {max : Nat} (hsep : sep ≠ '\r' ∧ sep ≠ '\n') : ∀ (f : Text) (num : Nat), btoksLoop sep max true num f =
    (num + (splitLine sep (firstLine f)).length - 1,
      if num ≤ max then (splitLine sep (firstLine f)).take (max + 1 - num) else [[]], afterLine f)
  | [], num => by
    unfold btoksLoop
    have : max + 1 - num = max - num + 1 ∨ ¬num ≤ max := by omega
    rcases this with h | h <;> simp [splitLine, dropCr, CString.split, h]
  | c :: f, num => by
    have hpos : 0 < (splitLine sep (firstLine f)).length := List.length_pos_iff.mpr splitLine_ne_nil
    unfold btoksLoop
    rw [btoksLoop_eq hsep f (num + 1), btoksLoop_eq hsep f num]
    by_cases htab : c = sep
    · have hn : c ≠ '\n' := htab ▸ hsep.2
      rw [firstLine_cons hn, afterLine_cons hn, htab, splitLine_sep hsep.1]
      by_cases hlt : num < max
      · have hsub : max + 1 - num = max + 1 - (num + 1) + 1 := by omega
        simp only [hlt, decide_true, Bool.and_true, if_true, hsub, show num + 1 ≤ max by omega, show num ≤ max by omega,
          List.take_succ_cons, List.length_cons]
        rw [show num + 1 + (splitLine sep (firstLine f)).length - 1 =
          num + ((splitLine sep (firstLine f)).length + 1) - 1 by omega]
      · have hnot : ¬num + 1 ≤ max := by omega
        simp only [hlt, decide_false, Bool.and_false, Bool.false_eq_true, if_false, decide_true, Bool.and_true, if_true, hnot,
          List.length_cons]
        rw [show num + 1 + (splitLine sep (firstLine f)).length - 1 =
          num + ((splitLine sep (firstLine f)).length + 1) - 1 by omega]
        split
        · next hle => simp [show max + 1 - num = 1 by omega]
        · rfl
    · simp only [htab, decide_false, Bool.false_and, Bool.false_eq_true, if_false, ne_eq, not_false_eq_true, decide_true,
        Bool.true_and, decide_eq_true_eq]
      by_cases hcr : c = '\r'
      · have hn : c ≠ '\n' := by
          rw [hcr]
          decide
        rw [if_pos hcr, firstLine_cons hn, afterLine_cons hn, hcr, splitLine_cr]
      · rw [if_neg hcr]
        by_cases hn : c = '\n'
        · rw [if_pos hn, hn, firstLine_newline, afterLine_newline]
          have : max + 1 - num = max - num + 1 ∨ ¬num ≤ max := by omega
          rcases this with h | h <;> simp [splitLine, dropCr, CString.split, h]
        · rw [if_neg hn, firstLine_cons hn, afterLine_cons hn, splitLine_cons htab hcr, List.length_modifyHead]
          refine congrArg _ (congrArg (·, afterLine f) ?_)
          split
          · next hle => rw [take_modifyHead (by omega)]
          · rfl

theorem btoks_splitLine {max : Nat} (hsep : sep ≠ '\r' ∧ sep ≠ '\n') (hmax : 0 < max) : btoks sep max true f =
    ((splitLine sep (firstLine f)).length, ((splitLine sep (firstLine f)).take max).map cstr, afterLine f) := by
  unfold btoks
  rw [btoksLoop_eq hsep, if_pos (show 1 ≤ max from hmax), Nat.add_sub_cancel, Nat.add_sub_cancel_left]

end

theorem btoks_eq {max : Nat} (hmax : 0 < max) : btoks '\t' max true f =
    ((tokens (firstLine f)).length, ((tokens (firstLine f)).take max).map cstr, afterLine f) :=
  btoks_splitLine (by decide) hmax

/-- The tokens of a line that has exactly `max` of them. -/
def toks (max : Nat) (line : Text) : Option (List Text) :=
  if (tokens line).length = max then some ((tokens line).map cstr) else none

/-- A line is read as `max` tokens exactly when it has them. -/
theorem btoks_toks {max : Nat} (hmax : 0 < max) : (btoks '\t' max true f).2.2 = afterLine f ∧
    ((btoks '\t' max true f).1 = max ∧ toks max (firstLine f) = some (btoks '\t' max true f).2.1 ∨
      (btoks '\t' max true f).1 ≠ max ∧ toks max (firstLine f) = none) := by
  rw [btoks_eq hmax]
  refine ⟨rfl, ?_⟩
  unfold toks
  by_cases hlen : (tokens (firstLine f)).length = max
  · exact Or.inl ⟨hlen, by rw [if_pos hlen, List.take_of_length_le hlen.le]⟩
  · exact Or.inr ⟨hlen, if_neg hlen⟩

end
end Nget

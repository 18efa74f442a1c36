import Nget.Theorems.ArticleReading

/-! An article that is cut off. The end of the stream ends a line as a line feed does, so an article is taken
    for complete when what came of its last line reads as the terminator. -/

namespace Nget
open CString

/-- A line reads as the end of the article. -/
def readsAsEnd (line : Text) : Bool := isEndMark (cstr (dropCr line))

section
variable {fuel : Nat} {header : Bool} {ari : Arinfo} {buf : List Text}

/-- On a stream that is closed the loop throws, unless a line of it reads as the end. -/
theorem dogetarticleLoop_closed : ∀ (fuel : Nat) (header : Bool) (ari : Arinfo) (buf : List Text) (f : Text), f.length < fuel →
    if (bufLines f).any readsAsEnd then ∃ r, dogetarticleLoop fuel header ari buf ⟨f, none⟩ = some (.ok r)
    else dogetarticleLoop fuel header ari buf ⟨f, none⟩ = some (.error connectionClosed)
  | 0, _, _, _, _, hfuel => absurd hfuel (Nat.not_lt_zero _)
  | fuel + 1, header, ari, buf, f, hfuel => by
    rw [dogetarticleLoop]
    rcases getline_cases ⟨f, none⟩ with ⟨i, hi, hne, -⟩ | ⟨e, he, -, -, hclosed⟩
    · have hless : (afterLine f).length < fuel := (length_afterLine hne).trans_le (Nat.le_of_lt_succ hfuel)
      rw [bufLines_eq hne, List.any_cons, hi]
      dsimp only
      rw [← readsAsEnd]
      cases hend : readsAsEnd (firstLine f) with
      | true => exact ⟨_, rfl⟩
      | false =>
        simp only [Bool.false_or, Bool.false_eq_true, if_false]
        by_cases hheader : (header && (unstuffed (cstr (dropCr (firstLine f)))).isEmpty) = true
        · rw [if_pos hheader]
          exact dogetarticleLoop_closed fuel _ _ _ _ hless
        · rw [if_neg hheader]
          exact dogetarticleLoop_closed fuel _ _ _ _ hless
    · obtain ⟨hnil, rfl⟩ := hclosed rfl
      rw [show f = [] from hnil] at he ⊢
      rw [he]
      rfl

end

/-- The round throws the end of the connection exactly when no line reads as the end of the article. The temp
    file is then what it was. -/
theorem doarticleRound_closed {check : LineCheck} {f : Text} {fn : Option Text} :
    doarticleRound check ⟨f, none⟩ fn = some (.error connectionClosed, fn) ↔ ∀ line ∈ bufLines f, readsAsEnd line = false := by
  have hloop := dogetarticleLoop_closed (f.length + 1) true {} [] f (Nat.lt_succ_self _)
  unfold doarticleRound nntpDogetarticle
  by_cases hend : (bufLines f).any readsAsEnd = true
  · rw [if_pos hend] at hloop
    obtain ⟨⟨ari, buf, s⟩, hr⟩ := hloop
    obtain ⟨line, hline, hreads⟩ := List.any_eq_true.mp hend
    dsimp only
    rw [hr]
    dsimp only
    constructor
    · intro h
      split at h
      · next heq =>
        split at heq <;> cases heq
      · next e heq =>
        split at heq
        · cases heq
          simp [connectionClosed] at h
        · cases heq
      · cases h
    · intro h
      rw [h line hline] at hreads
      cases hreads
  · rw [if_neg hend] at hloop
    dsimp only
    rw [hloop]
    constructor
    · intro _ line hline
      by_contra h
      exact hend (List.any_eq_true.mpr ⟨line, hline, by simpa using h⟩)
    · intro _
      rfl

/-! ### Where an article may not be cut -/

/-- The cut at `k` is behind the first dot of a stuffed line, or in the terminator behind its dot. -/
def cutAtDot : List Text → Nat → Bool
  | [], k => k = 1 || k = 2
  | line :: lines, k =>
    if k ≤ (stuffed line).length + 1 then k = 1 && line.head? = some '.'
    else cutAtDot lines (k - ((stuffed line).length + 2))

theorem take_one_stuffed {line : Text} (h : stuffed line ≠ []) : (stuffed line).take 1 = ".".toList ↔
    line.head? = some '.' := by
  unfold stuffed at h ⊢
  by_cases hdot : line.head? = some '.'
  · simp [hdot]
  · rw [if_neg hdot] at h ⊢
    cases line with
    | nil => exact absurd rfl h
    | cons c line =>
      constructor
      · intro hc
        simpa using hc
      · intro hc
        exact absurd hc hdot

/-- What came of a line that was cut reads as the end when it is its dot alone. -/
theorem readsAsEnd_take {line : Text} {k : Nat} (h : OneLine line) (hk : k ≤ (stuffed line).length + 1) (hpos : 0 < k) :
    readsAsEnd ((stuffed line ++ ['\r']).take k) = (k = 1 && line.head? = some '.') := by
  have hone := stuffed_oneLine h
  rcases Nat.lt_or_ge (stuffed line).length k with hlong | hshort
  · have hall : (stuffed line ++ ['\r']).take k = stuffed line ++ ['\r'] := List.take_of_length_le (by simp; omega)
    have hdrop : dropCr (stuffed line ++ ['\r']) = dropCr (stuffed line) := by simp [dropCr]
    rw [hall, readsAsEnd, hdrop, hone.dropCr, hone.cstr, isEndMark_stuffed]
    refine (Bool.and_eq_false_iff.mpr ?_).symm
    by_cases hdot : line.head? = some '.'
    · left
      rw [stuffed, if_pos hdot] at hlong
      cases line with
      | nil => cases hdot
      | cons c line =>
        simp only [List.length_cons] at hlong
        exact decide_eq_false (by omega)
    · exact Or.inr (decide_eq_false hdot)
  · have hne : stuffed line ≠ [] := fun hnil => by
      rw [hnil, List.length_nil] at hshort
      omega
    have htake : (stuffed line ++ ['\r']).take k = (stuffed line).take k := List.take_append_of_le_length hshort
    have hpart : OneLine ((stuffed line).take k) := fun c hc => hone c (List.mem_of_mem_take hc)
    rw [htake, readsAsEnd, hpart.dropCr, hpart.cstr, isEndMark]
    by_cases hk1 : k = 1
    · rw [hk1, decide_eq_decide.mpr (take_one_stuffed hne)]
      rfl
    · have hlen : (stuffed line).take k ≠ ".".toList := fun heq => by
        have := congrArg List.length heq
        rw [List.length_take, min_eq_left hshort] at this
        exact hk1 this
      rw [decide_eq_false hlen, decide_eq_false hk1, Bool.false_and]

/-- The lines of an article that is cut off read as the end exactly for the cuts behind a dot. -/
theorem bufLines_cut : ∀ (lines : List Text) (k : Nat), (∀ line ∈ lines, OneLine line) → k < (sentArticle lines).length →
    ((∀ line ∈ bufLines ((sentArticle lines).take k), readsAsEnd line = false) ↔ cutAtDot lines k = false)
  | [], k, _, hk => by
    have hk3 : k < 3 := hk
    interval_cases k <;> decide
  | line :: lines, k, hclean, hk => by
    have hline := hclean line List.mem_cons_self
    have hone := stuffed_oneLine hline
    have hnewline : '\n' ∉ stuffed line ++ ['\r'] := by
      have := hone.newline
      simp [this]
    have hsplit : sentArticle (line :: lines) = (stuffed line ++ ['\r']) ++ '\n' :: sentArticle lines := by
      simp [sentArticle, sentLines]
    have hlength : (stuffed line ++ ['\r']).length = (stuffed line).length + 1 := by simp
    rw [cutAtDot]
    by_cases hcut : k ≤ (stuffed line).length + 1
    · rw [if_pos hcut, hsplit, List.take_append_of_le_length (by omega)]
      rcases Nat.eq_zero_or_pos k with rfl | hpos
      · simp [bufLines]
      · have hne : (stuffed line ++ ['\r']).take k ≠ [] := by
          intro hnil
          have := congrArg List.length hnil
          rw [List.length_take, List.length_nil] at this
          omega
        rw [bufLines_singleton hne fun hm => hnewline (List.mem_of_mem_take hm)]
        simp only [List.mem_singleton, forall_eq, readsAsEnd_take hline hcut hpos]
    · obtain ⟨j, rfl⟩ : ∃ j, k = (stuffed line ++ ['\r']).length + 1 + j := Nat.exists_eq_add_of_le (by omega)
      have htake : (sentArticle (line :: lines)).take ((stuffed line ++ ['\r']).length + 1 + j) =
          (stuffed line ++ ['\r']) ++ '\n' :: (sentArticle lines).take j := by
        rw [hsplit, List.take_append, List.take_of_length_le (by omega)]
        rw [show (stuffed line ++ ['\r']).length + 1 + j - (stuffed line ++ ['\r']).length = j + 1 by omega,
          List.take_succ_cons]
      have hj : (stuffed line ++ ['\r']).length + 1 + j - ((stuffed line).length + 2) = j := by omega
      have hjlen : j < (sentArticle lines).length := by
        have := congrArg List.length hsplit
        rw [List.length_append, List.length_cons] at this
        omega
      have hread : readsAsEnd (stuffed line ++ ['\r']) = false := by
        have hdrop : dropCr (stuffed line ++ ['\r']) = dropCr (stuffed line) := by simp [dropCr]
        rw [readsAsEnd, hdrop, hone.dropCr, hone.cstr, isEndMark_stuffed]
      rw [if_neg hcut, htake, bufLines_append hnewline, hj,
        ← bufLines_cut lines j (fun l hl => hclean l (List.mem_cons_of_mem line hl)) hjlen]
      simp [hread]

/-- For every article and every place that it is cut at: the end of the connection is thrown and the temp file
    left alone exactly when no line that was received reads as the end of the article. When the article's
    lines are lines of text, these are all cuts but those behind a dot. -/
theorem cut_detected_iff (check : LineCheck) (fn : Option Text) (lines : List Text) (k : Nat) :
    ((k < (sentArticle lines).length →
        doarticleRound check ⟨(sentArticle lines).take k, none⟩ fn = some (.error connectionClosed, fn)) ↔
      (k < (sentArticle lines).length → ∀ line ∈ bufLines ((sentArticle lines).take k), readsAsEnd line = false)) ∧
    ((∀ line ∈ lines, OneLine line) → k < (sentArticle lines).length →
      ((∀ line ∈ bufLines ((sentArticle lines).take k), readsAsEnd line = false) ↔ cutAtDot lines k = false)) :=
  ⟨imp_congr_right fun _ => doarticleRound_closed, fun hclean hk => bufLines_cut lines k hclean hk⟩

/-- The connection is closed behind the first dot of a stuffed line: what came is stored as the article. -/
theorem cut_accepted :
    let lines := ["Subject: s".toList, [], "text".toList, "..".toList, "more".toList]
    let wire := sentArticle lines
    doarticleRound ⟨3, 0, 0, false⟩ ⟨wire.take 21, none⟩ none =
      some (.ok (⟨1, 20⟩, ⟨[], none⟩), some "Subject: s\n\ntext\n".toList) ∧ 21 < wire.length := by
  decide +kernel

end Nget

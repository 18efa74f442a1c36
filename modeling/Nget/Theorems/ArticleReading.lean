import Nget.Article
import Nget.Theorems.Lines

/-! nget and ngetlite read the same article. Their loops take the same lines from a connection and stop at
    the same one, so what one buffers is what the other has written. -/

namespace Nget
open CString

/-! ### One line of a connection -/

section
variable {failure : Option Text} {f line : Text}

/-- A read that meets the end of the bytes before a line feed is one that a failure throws in. -/
theorem bgetsConn_eq : ∀ f : Text, (f ≠ [] → failure = none ∨ '\n' ∈ f) → (f = [] → failure = none) →
    ∃ n, bgetsConn failure f = .ok (n, dropCr (firstLine f), afterLine f) ∧ (n = 0 ↔ f = [])
  | [], _, h => ⟨0, by simp [bgetsConn, h rfl, dropCr], by simp⟩
  | c :: f, h, _ => by
    unfold bgetsConn
    by_cases hn : c = '\n'
    · exact ⟨1, by simp [hn, dropCr], by simp⟩
    · have hrest : failure = none ∨ '\n' ∈ f := (h (by simp)).imp_right fun hm => by
        rcases List.mem_cons.mp hm with heq | hm
        · exact absurd heq.symm hn
        · exact hm
      obtain ⟨n, hf, -⟩ := bgetsConn_eq f (fun _ => hrest) fun hnil => hrest.resolve_right (by simp [hnil])
      rw [if_neg hn, hf, firstLine_cons hn, afterLine_cons hn]
      refine ⟨n + 1, ?_, by simp⟩
      by_cases hcr : c = '\r' <;> simp [dropCr, hcr]

theorem bgetsConn_error {e : Text} : ∀ f : Text, '\n' ∉ f → bgetsConn (some e) f = .error e
  | [], _ => rfl
  | c :: f, h => by
    simp only [List.mem_cons, not_or] at h
    rw [bgetsConn, if_neg (Ne.symm h.1), bgetsConn_error f h.2]

variable {s : Incoming}

/-- What `getline` gives: a line, or an exception when the bytes are at their end or the read fails. -/
theorem getline_cases (s : Incoming) :
    (∃ i : Int, s.getline = .ok (i, cstr (dropCr (firstLine s.bytes)), ⟨afterLine s.bytes, s.failure⟩) ∧ s.bytes ≠ [] ∧
      (s.failure = none ∨ '\n' ∈ s.bytes)) ∨
    ∃ e, s.getline = .error e ∧ e.fatal = false ∧ '\n' ∉ s.bytes ∧
      (s.failure = none → s.bytes = [] ∧ e = connectionClosed) := by
  obtain ⟨f, failure⟩ := s
  by_cases hf : f = []
  · refine Or.inr ?_
    rw [hf]
    cases failure with
    | none => exact ⟨_, rfl, rfl, by simp, fun _ => ⟨rfl, rfl⟩⟩
    | some e => exact ⟨⟨false, "nntp_getline: ".toList ++ e⟩, rfl, rfl, by simp, fun h => by cases h⟩
  · by_cases hread : failure = none ∨ '\n' ∈ f
    · obtain ⟨n, heq, hzero⟩ := bgetsConn_eq f (fun _ => hread) fun h => absurd h hf
      refine Or.inl ⟨n, ?_, hf, hread⟩
      have hpos : ¬(n : Int) ≤ 0 := by
        have hne : n ≠ 0 := fun h => hf (hzero.mp h)
        omega
      unfold Incoming.getline
      dsimp only
      rw [heq]
      dsimp only
      rw [if_neg hpos]
    · simp only [not_or] at hread
      obtain ⟨e, rfl⟩ := Option.ne_none_iff_exists'.mp hread.1
      refine Or.inr ⟨⟨false, "nntp_getline: ".toList ++ e⟩, ?_, rfl, hread.2, fun h => by cases h⟩
      unfold Incoming.getline
      dsimp only
      rw [bgetsConn_error f hread.2]

/-- A line that ends with a line feed. -/
theorem getline_line (hline : '\n' ∉ line) : ∃ i : Int,
    Incoming.getline ⟨line ++ '\n' :: f, failure⟩ = .ok (i, cstr (dropCr line), ⟨f, failure⟩) := by
  rcases getline_cases ⟨line ++ '\n' :: f, failure⟩ with ⟨i, hi, -⟩ | ⟨e, -, -, hn, -⟩
  · refine ⟨i, ?_⟩
    rw [hi, firstLine_append hline, afterLine_append hline]
  · exact absurd (show '\n' ∈ line ++ '\n' :: f by simp) hn

/-- The counts are not negative, so that ngetlite's test of them is nget's. -/
theorem lite_getline : Lite.getline s = s.getline := by
  unfold Lite.getline Incoming.getline
  cases bgetsConn s.failure s.bytes with
  | error e => rfl
  | ok r =>
    obtain ⟨n, line, f⟩ := r
    dsimp only
    by_cases hn : n = 0
    · rw [if_pos (by omega), if_pos (by omega)]
    · rw [if_neg (by omega), if_neg (by omega)]

end

/-! ### The two loops -/

section
variable {header : Bool} {ari : Arinfo} {buf : List Text} {counts : Lite.Counts} {s : Incoming} {fuel : Nat}

/-- The lines of a file. -/
def fileText (buf : List Text) : Text := buf.flatMap (· ++ ['\n'])

/-- The results of the two loops: both are still going, both throw the same, or both have read the same. -/
inductive Alike : Option (Except TransportEx (Arinfo × List Text × Incoming)) →
    Option (Except TransportEx (Lite.Counts × Incoming) × Text) → Prop where
  | going : Alike none none
  | thrown (e : TransportEx) (f : Text) (he : e.fatal = false) : Alike (some (.error e)) (some (.error e, f))
  | read (ari : Arinfo) (counts : Lite.Counts) (buf : List Text) (s : Incoming) (hlines : ari.linesdone = counts.rlines) :
    Alike (some (.ok (ari, buf, s))) (some (.ok (counts, s), fileText buf))

theorem loops_alike : ∀ (fuel : Nat) (header : Bool) (ari : Arinfo) (counts : Lite.Counts) (buf : List Text) (s : Incoming),
    ari.linesdone = counts.rlines →
      Alike (dogetarticleLoop fuel header ari buf s) (Lite.doarticleLoop fuel header counts (fileText buf) s)
  | 0, _, _, _, _, _, _ => .going
  | fuel + 1, header, ari, counts, buf, s, hlines => by
    rw [dogetarticleLoop, Lite.doarticleLoop, lite_getline]
    rcases getline_cases s with ⟨i, hi, -, -⟩ | ⟨e, he, hfatal, -, -⟩
    · rw [hi]
      dsimp only
      by_cases hend : isEndMark (cstr (dropCr (firstLine s.bytes))) = true
      · rw [if_pos hend, if_pos hend]
        exact .read ari counts buf _ hlines
      · rw [if_neg hend, if_neg hend]
        generalize unstuffed (cstr (dropCr (firstLine s.bytes))) = lp
        have hfile : fileText buf ++ (lp ++ ['\n']) = fileText (buf ++ [lp]) := by simp [fileText]
        rw [hfile]
        by_cases hheader : (header && lp.isEmpty) = true
        · rw [if_pos hheader, if_pos hheader]
          exact loops_alike fuel _ _ _ _ _ rfl
        · rw [if_neg hheader, if_neg hheader]
          exact loops_alike fuel _ _ _ _ _ (by simp [hlines])
    · rw [he]
      exact .thrown e (fileText buf) hfatal

/-- The loop ends when it may read a line more than there are bytes. -/
theorem dogetarticleLoop_ends : ∀ (fuel : Nat) (header : Bool) (ari : Arinfo) (buf : List Text) (s : Incoming),
    s.bytes.length < fuel → ∃ r, dogetarticleLoop fuel header ari buf s = some r
  | 0, _, _, _, _, hfuel => absurd hfuel (Nat.not_lt_zero _)
  | fuel + 1, header, ari, buf, s, hfuel => by
    rw [dogetarticleLoop]
    rcases getline_cases s with ⟨i, hi, hne, -⟩ | ⟨e, he, -⟩
    · have hless : (afterLine s.bytes).length < fuel := (length_afterLine hne).trans_le (Nat.le_of_lt_succ hfuel)
      rw [hi]
      dsimp only
      by_cases hend : isEndMark (cstr (dropCr (firstLine s.bytes))) = true
      · exact ⟨_, if_pos hend⟩
      · rw [if_neg hend]
        by_cases hheader : (header && (unstuffed (cstr (dropCr (firstLine s.bytes)))).isEmpty) = true
        · rw [if_pos hheader]
          exact dogetarticleLoop_ends fuel _ _ _ _ hless
        · rw [if_neg hheader]
          exact dogetarticleLoop_ends fuel _ _ _ _ hless
    · rw [he]
      exact ⟨_, rfl⟩

/-! ### An article as it is sent -/

/-- A line with a dot put before it when it starts with one. -/
def stuffed (line : Text) : Text := if line.head? = some '.' then '.' :: line else line

/-- The lines of an article as they are sent, without the terminator. -/
def sentLines (lines : List Text) : Text := lines.flatMap fun line => stuffed line ++ ['\r', '\n']

/-- An article as it is sent. -/
def sentArticle (lines : List Text) : Text := sentLines lines ++ ['.', '\r', '\n']

theorem isEndMark_stuffed (line : Text) : isEndMark (stuffed line) = false := by
  unfold isEndMark stuffed
  by_cases hdot : line.head? = some '.'
  · rw [if_pos hdot]
    cases line with
    | nil => cases hdot
    | cons c line => simp
  · rw [if_neg hdot]
    exact decide_eq_false fun h => hdot (h ▸ rfl)

theorem unstuffed_stuffed (line : Text) : unstuffed (stuffed line) = line := by
  unfold unstuffed stuffed
  by_cases hdot : line.head? = some '.'
  · rw [if_pos hdot]
    simp
  · rw [if_neg hdot, if_neg hdot]

theorem stuffed_oneLine {line : Text} (h : OneLine line) : OneLine (stuffed line) := by
  unfold stuffed
  by_cases hdot : line.head? = some '.'
  · rw [if_pos hdot]
    exact h.cons (by decide)
  · rwa [if_neg hdot]

/-- A line that is sent is read as what is stuffed. -/
theorem getline_sent {line f : Text} {failure : Option Text} (h : OneLine line) : ∃ i : Int,
    Incoming.getline ⟨line ++ ['\r', '\n'] ++ f, failure⟩ = .ok (i, line, ⟨f, failure⟩) := by
  have hnewline : '\n' ∉ line ++ ['\r'] := by
    have := h.newline
    simp [this]
  have hread : cstr (dropCr (line ++ ['\r'])) = line := by
    have hdrop : dropCr (line ++ ['\r']) = dropCr line := by simp [dropCr]
    rw [hdrop, h.dropCr, h.cstr]
  obtain ⟨i, hi⟩ := @getline_line failure f (line ++ ['\r']) hnewline
  refine ⟨i, ?_⟩
  rw [hread] at hi
  simpa using hi

/-- The loop reads the lines of an article up to the terminator. -/
theorem dogetarticleLoop_sent {failure : Option Text} {more : Text} :
    ∀ (lines : List Text) (fuel : Nat) (header : Bool) (ari : Arinfo)
    (buf : List Text), (∀ line ∈ lines, OneLine line) → lines.length < fuel →
      ∃ ari', dogetarticleLoop fuel header ari buf ⟨sentArticle lines ++ more, failure⟩ =
        some (.ok (ari', buf ++ lines, ⟨more, failure⟩))
  | lines, 0, _, _, _, _, hfuel => absurd hfuel (Nat.not_lt_zero _)
  | [], fuel + 1, header, ari, buf, _, _ => by
    obtain ⟨i, hi⟩ := @getline_sent ".".toList more failure (by decide)
    refine ⟨ari, ?_⟩
    rw [dogetarticleLoop, show sentArticle [] ++ more = ".".toList ++ ['\r', '\n'] ++ more from rfl, hi]
    simp [isEndMark]
  | line :: lines, fuel + 1, header, ari, buf, hclean, hfuel => by
    obtain ⟨i, hi⟩ := @getline_sent (stuffed line) (sentArticle lines ++ more)
      failure (stuffed_oneLine (hclean line List.mem_cons_self))
    have hsplit : sentArticle (line :: lines) ++ more = stuffed line ++ ['\r', '\n'] ++ (sentArticle lines ++ more) := by
      simp [sentArticle, sentLines]
    have hnot : ¬isEndMark (stuffed line) = true := by simp [isEndMark_stuffed]
    have hclean' : ∀ l ∈ lines, OneLine l := fun l hl => hclean l (List.mem_cons_of_mem line hl)
    have happend : buf ++ [line] ++ lines = buf ++ line :: lines := by simp
    rw [dogetarticleLoop, hsplit, hi]
    dsimp only
    rw [if_neg hnot, unstuffed_stuffed, ← happend]
    by_cases hheader : (header && line.isEmpty) = true
    · rw [if_pos hheader]
      exact dogetarticleLoop_sent lines fuel _ _ _ hclean' (Nat.lt_of_succ_lt_succ hfuel)
    · rw [if_neg hheader]
      exact dogetarticleLoop_sent lines fuel _ _ _ hclean' (Nat.lt_of_succ_lt_succ hfuel)

theorem length_sentLines : ∀ lines : List Text, lines.length ≤ (sentLines lines).length
  | [] => Nat.zero_le _
  | line :: lines => by
    have := length_sentLines lines
    simp only [sentLines, List.flatMap_cons, List.length_append, List.length_cons, List.length_nil] at this ⊢
    omega

/-- Both read the same of every stream, and of an article its lines. -/
theorem articles_read_alike (check : LineCheck) (s : Incoming) (fn : Option Text) :
    ((∃ e f, doarticleRound { check with unequalLineError := false } s fn = some (.error e, fn) ∧
        Lite.doarticle s = some (.error e, { temp := some f }) ∧ e.fatal = false) ∨
      ∃ ari counts s' content, doarticleRound { check with unequalLineError := false } s fn =
        some (.ok (ari, s'), some content) ∧
        Lite.doarticle s = some (.ok (counts, s'), { outfile := some content }) ∧ ari.linesdone = counts.rlines) ∧
    ∀ (lines : List Text) (more : Text) (failure : Option Text), (∀ line ∈ lines, OneLine line) → ∃ ari counts,
      doarticleRound { check with unequalLineError := false } ⟨sentArticle lines ++ more, failure⟩ fn =
          some (.ok (ari, ⟨more, failure⟩), some (fileText lines)) ∧
        Lite.doarticle ⟨sentArticle lines ++ more, failure⟩ =
          some (.ok (counts, ⟨more, failure⟩), { outfile := some (fileText lines) }) := by
  have hread : ∀ s : Incoming, ∃ r, dogetarticleLoop (s.bytes.length + 1) true {} [] s = some r ∧
      Alike (some r) (Lite.doarticleLoop (s.bytes.length + 1) true {} [] s) := fun s => by
    obtain ⟨r, hr⟩ := dogetarticleLoop_ends (s.bytes.length + 1) true {} [] s (Nat.lt_succ_self _)
    exact ⟨r, hr, hr ▸ loops_alike (s.bytes.length + 1) true {} {} [] s rfl⟩
  refine ⟨?_, fun lines more failure hclean => ?_⟩
  · obtain ⟨r, hr, halike⟩ := hread s
    unfold doarticleRound nntpDogetarticle Lite.doarticle
    rw [hr]
    cases hlite : Lite.doarticleLoop (s.bytes.length + 1) true {} [] s with
    | none =>
      rw [hlite] at halike
      cases halike
    | some r' =>
      rw [hlite] at halike
      cases halike with
      | thrown e f he => exact Or.inl ⟨e, f, rfl, rfl, he⟩
      | read ari counts buf s' hlines => exact Or.inr ⟨ari, counts, s', fileText buf, by simp [fileText], rfl, hlines⟩
  · have hlen : lines.length < (sentArticle lines ++ more).length + 1 := by
      have := length_sentLines lines
      simp only [sentArticle, List.length_append]
      omega
    obtain ⟨r, hr, halike⟩ := hread ⟨sentArticle lines ++ more, failure⟩
    obtain ⟨ari, hari⟩ := @dogetarticleLoop_sent failure more lines ((sentArticle lines ++ more).length + 1)
      true {} [] hclean hlen
    unfold doarticleRound nntpDogetarticle Lite.doarticle
    rw [hari] at hr
    obtain rfl := Option.some.inj hr
    cases hlite : Lite.doarticleLoop ((sentArticle lines ++ more).length + 1) true {} [] ⟨sentArticle lines ++ more,
      failure⟩ with
    | none =>
      rw [hlite] at halike
      cases halike
    | some r' =>
      rw [hlite] at halike
      cases halike with
      | read ari counts buf s' hlines =>
        refine ⟨ari, counts, ?_, rfl⟩
        dsimp only
        rw [hari]
        simp [fileText]

end
end Nget

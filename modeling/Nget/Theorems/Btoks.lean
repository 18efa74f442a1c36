import Nget.Theorems.Transparent
import Nget.Theorems.Lines

/-! `btoks` is `bgets` and splitting: it swallows the line that `bgets` swallows, and its tokens are the fields that
    `goodstrtok` finds in what `bgets` gives, unless a signed `char` keeps it from seeing the separator. -/

namespace Nget
open CString
variable {tok : Char} {max : Nat} {tokfinal signed : Bool} {f : Text}

/-- The fields of a string when `goodstrtok` is called at most `n` times and what is left is the last one. -/
def splitMax (sep : Char) : Nat → Text → List Text
  | 0, s => [s]
  | n + 1, s =>
    match goodstrtok sep (some s) with
    | some (t, some rest) => t :: splitMax sep n rest
    | some (t, none) => [t]
    | none => []

/-- The count and the fields of a line: with `tokfinal` of all fields, of which `max` are kept, else the last of
    `max` fields has the rest of the line. -/
def fieldsOf (tok : Char) (max : Nat) (tokfinal : Bool) (line : Text) : Nat × List Text :=
  if tokfinal then ((split tok line).length, (split tok line).take max)
  else ((splitMax tok (max - 1) line).length, splitMax tok (max - 1) line)

/-! ### Fields -/

theorem goodstrtok_nil {sep : Char} : goodstrtok sep (some []) = some ([], none) := rfl

theorem goodstrtok_sep {sep : Char} {s : Text} : goodstrtok sep (some (sep :: s)) = some ([], some s) := by
  simp [goodstrtok]

theorem goodstrtok_cons {sep c : Char} {s : Text} (hc : c ≠ sep) :
    goodstrtok sep (some (c :: s)) = (goodstrtok sep (some s)).map fun t => (c :: t.1, t.2) := by
  have hcons : (c :: s).dropWhile (· ≠ sep) = s.dropWhile (· ≠ sep) := List.dropWhile_cons_of_pos (by simpa using hc)
  have htake : (c :: s).takeWhile (· ≠ sep) = c :: s.takeWhile (· ≠ sep) := List.takeWhile_cons_of_pos (by simpa using hc)
  unfold goodstrtok
  dsimp only
  rw [hcons, htake]
  split <;> rfl

theorem splitMax_nil {sep : Char} : ∀ n, splitMax sep n [] = [[]]
  | 0 => rfl
  | n + 1 => by rw [splitMax, goodstrtok_nil]

theorem splitMax_sep {sep : Char} {n : Nat} {s : Text} : splitMax sep (n + 1) (sep :: s) = [] :: splitMax sep n s := by
  rw [splitMax, goodstrtok_sep]

theorem splitMax_cons {sep c : Char} {s : Text} (hc : c ≠ sep) (n : Nat) :
    splitMax sep n (c :: s) = (splitMax sep n s).modifyHead (c :: ·) := by
  cases n with
  | zero => rfl
  | succ n =>
    obtain ⟨t, rest, htok, -⟩ := @goodstrtok_split sep s
    rw [splitMax, splitMax, goodstrtok_cons hc, htok]
    cases rest <;> rfl

theorem splitMax_ne_nil {sep : Char} : ∀ (n : Nat) (s : Text), splitMax sep n s ≠ []
  | 0, _ => by simp [splitMax]
  | n + 1, s => by
    obtain ⟨t, rest, htok, -⟩ := @goodstrtok_split sep s
    rw [splitMax, htok]
    cases rest <;> simp

theorem mem_splitMax {sep : Char} : ∀ {n : Nat} {s t : Text}, t ∈ splitMax sep n s → t ⊆ s
  | 0, s, t, ht => by
    rw [splitMax, List.mem_singleton] at ht
    exact fun _ h => ht ▸ h
  | n + 1, [], t, ht => by
    rw [splitMax_nil, List.mem_singleton] at ht
    simp [ht]
  | n + 1, c :: s, t, ht => by
    by_cases hc : c = sep
    · rw [hc, splitMax_sep] at ht
      rcases List.mem_cons.mp ht with rfl | ht
      · simp
      · exact List.subset_cons_of_subset c (mem_splitMax ht)
    · rw [splitMax_cons hc] at ht
      have ih := fun u => @mem_splitMax sep (n + 1) s u
      cases hsplit : splitMax sep (n + 1) s with
      | nil => exact absurd hsplit (splitMax_ne_nil _ _)
      | cons u us =>
        rw [hsplit] at ht ih
        rcases List.mem_cons.mp ht with rfl | ht
        · exact List.cons_subset_cons c (ih u List.mem_cons_self)
        · exact List.subset_cons_of_subset c (ih t (List.mem_cons_of_mem u ht))

theorem length_splitMax_le {sep : Char} : ∀ (n : Nat) (s : Text), (splitMax sep n s).length ≤ n + 1
  | 0, _ => le_rfl
  | n + 1, s => by
    obtain ⟨t, rest, htok, -⟩ := @goodstrtok_split sep s
    rw [splitMax, htok]
    cases rest with
    | none => simp
    | some rest => exact Nat.succ_le_succ (length_splitMax_le n rest)

theorem splitMax_append {sep : Char} {n : Nat} {t rest : Text} (ht : sep ∉ t) :
    splitMax sep (n + 1) (t ++ sep :: rest) = t :: splitMax sep n rest := by
  induction t with
  | nil => exact splitMax_sep
  | cons c t ih =>
    simp only [List.mem_cons, not_or] at ht
    rw [List.cons_append, splitMax_cons (Ne.symm ht.1), ih ht.2]
    rfl

theorem splitMax_of_not_mem {sep : Char} {n : Nat} {s : Text} (hs : sep ∉ s) : splitMax sep n s = [s] := by
  induction s with
  | nil => exact splitMax_nil n
  | cons c s ih =>
    simp only [List.mem_cons, not_or] at hs
    rw [splitMax_cons (Ne.symm hs.1), ih hs.2]
    rfl

/-! ### The tokens that the offsets point at -/

/-- The buffer holds the pieces with a NUL between them, and the offsets are where the pieces start. -/
inductive Laid : Text → List Nat → List Text → Prop where
  | first (cur : Text) : Laid cur [0] [cur]
  | next {buf : Text} {toks : List Nat} {pieces : List Text} (cur : Text) :
      Laid buf toks pieces → Laid (buf ++ nul :: cur) (toks ++ [buf.length + 1]) (pieces ++ [cur])

theorem cstr_append_nul {s t : Text} : cstr (s ++ nul :: t) = cstr s := by
  induction s with
  | nil => simp [cstr]
  | cons c s ih =>
    unfold cstr at ih ⊢
    rw [List.cons_append, List.takeWhile_cons, List.takeWhile_cons, ih]

namespace Laid
variable {buf : Text} {toks : List Nat} {pieces : List Text} {cur : Text}

theorem le_length (h : Laid buf toks pieces) : ∀ i ∈ toks, i ≤ buf.length := by
  induction h with
  | first cur => simp
  | next cur h ih =>
    intro i hi
    rw [List.length_append, List.length_cons]
    rcases List.mem_append.mp hi with hi | hi
    · have := ih i hi
      omega
    · rw [List.mem_singleton.mp hi]
      omega

/-- Read as C strings, the offsets give the pieces. -/
theorem toks_eq (h : Laid buf toks pieces) : (toks.map fun i => cstr (buf.drop i)) = pieces.map cstr := by
  induction h with
  | first cur => rfl
  | @next buf toks pieces cur h ih =>
    rw [List.map_append, List.map_append, ← ih]
    congr 1
    · refine List.map_congr_left fun i hi => ?_
      rw [List.drop_append_of_le_length (h.le_length i hi), cstr_append_nul]
    · have hdrop : (buf ++ nul :: cur).drop (buf.length + 1) = cur := by
        rw [← List.drop_drop, List.drop_left]
        rfl
      rw [List.map_singleton, List.map_singleton, hdrop]

theorem length_eq (h : Laid buf toks pieces) : toks.length = pieces.length := by
  induction h with
  | first cur => rfl
  | next cur h ih => rw [List.length_append, List.length_append, ih]; rfl

/-- A byte at the end of the buffer is one at the end of the last piece. -/
theorem append_byte (h : Laid buf toks (pieces ++ [cur])) (i : Char) : Laid (buf ++ [i]) toks (pieces ++ [cur ++ [i]]) := by
  generalize hall : pieces ++ [cur] = all at h
  cases h with
  | first =>
    cases pieces with
    | nil =>
      cases hall
      exact first _
    | cons p ps => simp at hall
  | next _ h =>
    obtain ⟨rfl, hcur⟩ := List.append_inj' hall rfl
    cases hcur
    rw [List.append_assoc]
    exact next _ h

end Laid

theorem modifyHead_nil_append {ps : List Text} : ps.modifyHead ([] ++ ·) = ps := by
  cases ps <;> rfl

theorem modifyHead_cons_append {i : Char} {cur : Text} {ps : List Text} :
    (ps.modifyHead (i :: ·)).modifyHead (cur ++ ·) = ps.modifyHead (cur ++ [i] ++ ·) := by
  cases ps <;> simp

/-! ### The loops -/

theorem unbuffered_bgetsLoop_eq : ∀ (f : Text) (rounds rcount : Nat) (buf : Text), f.length < rounds →
    Reader.bgetsLoop .unbuffered rounds rcount buf f =
      some (rcount + (f.length - (bgets f).2.length), buf ++ (bgets f).1, (bgets f).2)
  | [], rounds + 1, rcount, buf, _ => by simp [Reader.bgetsLoop, Reader.unbuffered, bgets]
  | i :: f, rounds + 1, rcount, buf, hrounds => by
    rw [List.length_cons] at hrounds
    have hlen : (bgets f).2.length ≤ f.length := by
      rw [bgets_eq]
      exact ((List.tail_sublist _).trans (List.dropWhile_sublist _)).length_le
    have ih := fun rcount buf => unbuffered_bgetsLoop_eq f rounds rcount buf (by omega)
    have hcount : rcount + 1 + (f.length - (bgets f).2.length) = rcount + ((i :: f).length - (bgets f).2.length) := by
      rw [List.length_cons]
      omega
    unfold Reader.bgetsLoop bgets
    simp only [Reader.unbuffered, List.head?_cons, List.tail_cons, Option.bind_some] at ih ⊢
    split_ifs
    · rw [ih, hcount]
    · simp
    · rw [ih, hcount, List.append_assoc, List.singleton_append]

/-- While the separator is seen, the loop lays out the tokens that are kept. -/
theorem unbuffered_btoksLoop_eq (hseen : ∀ i, isTok signed tok i = decide (i = tok)) :
    ∀ (f : Text) (rounds num : Nat) (buf : Text) (toks : List Nat) (pieces : List Text) (cur : Text), f.length < rounds →
      Laid buf toks (pieces ++ [cur]) →
      ∃ buf' toks', Reader.btoksLoop .unbuffered signed tok max tokfinal rounds num buf toks f =
          some ((btoksLoop tok max tokfinal num f).1, buf', toks', (btoksLoop tok max tokfinal num f).2.2) ∧
        Laid buf' toks' (pieces ++ (btoksLoop tok max tokfinal num f).2.1.modifyHead (cur ++ ·))
  | [], rounds + 1, num, buf, toks, pieces, cur, _, hlaid => ⟨buf, toks, rfl, by simpa [btoksLoop] using hlaid⟩
  | i :: f, rounds + 1, num, buf, toks, pieces, cur, hrounds, hlaid => by
    rw [List.length_cons] at hrounds
    have ih := fun num buf toks pieces cur => unbuffered_btoksLoop_eq hseen f rounds num buf toks pieces cur (by omega)
    -- A byte that is not taken for anything else is kept while there is a token for it.
    have keep : ∃ buf' toks', Reader.btoksLoop .unbuffered signed tok max tokfinal rounds num
      (if num ≤ max then buf ++ [i] else buf)
          toks f = some ((btoksLoop tok max tokfinal num f).1, buf', toks', (btoksLoop tok max tokfinal num f).2.2) ∧
        Laid buf' toks' (pieces ++ (if num ≤ max then (btoksLoop tok max tokfinal num f).2.1.modifyHead (i :: ·)
          else (btoksLoop tok max tokfinal num f).2.1).modifyHead (cur ++ ·)) := by
      split
      · rw [modifyHead_cons_append]
        exact ih _ _ _ _ _ (hlaid.append_byte i)
      · exact ih _ _ _ _ _ hlaid
    rw [Reader.btoksLoop, show Reader.unbuffered.bget (i :: f) = some (some i, f) from rfl, Option.bind_some, btoksLoop]
    dsimp only
    rw [hseen]
    by_cases htok : i = tok
    · simp only [htok, decide_true, Bool.true_and, Bool.not_true, Bool.false_and, Bool.false_eq_true, if_false,
        decide_eq_true_eq,
        ne_eq, not_true_eq_false, decide_false] at keep ⊢
      split
      · -- A separator that starts a token: the next piece is empty so far.
        obtain ⟨buf', toks', hloop, hlaid'⟩ := ih (num + 1) _ _ _ [] (hlaid.next [])
        rw [modifyHead_nil_append, List.append_assoc] at hlaid'
        exact ⟨buf', toks', hloop, by simpa using hlaid'⟩
      · split
        · exact ih _ _ _ _ _ hlaid
        · exact keep
    · simp only [htok, decide_false, Bool.false_and, Bool.not_false, Bool.true_and, Bool.false_eq_true, if_false,
        decide_eq_true_eq, ne_eq, not_false_eq_true, decide_true]
      split
      · exact ih _ _ _ _ _ hlaid
      · split
        · exact ⟨buf, toks, rfl, by simpa using hlaid⟩
        · exact keep

/-- A separator that is not seen in the line leaves it whole. -/
theorem unbuffered_btoksLoop_whole (hmax : 0 < max) : ∀ (f : Text) (rounds : Nat) (buf : Text), f.length < rounds →
    (∀ i ∈ firstLine f, isTok signed tok i = false) → isTok signed tok '\n' = false →
    Reader.btoksLoop .unbuffered signed tok max tokfinal rounds 1 buf [0] f = some (1, buf ++ (bgets f).1, [0], (bgets f).2)
  | [], rounds + 1, buf, _, _, _ => by simp [Reader.btoksLoop, Reader.unbuffered, bgets]
  | i :: f, rounds + 1, buf, hrounds, hnot, hlf => by
    rw [List.length_cons] at hrounds
    have hi : isTok signed tok i = false := by
      by_cases hn : i = '\n'
      · exact hn ▸ hlf
      · exact hnot i (by rw [firstLine_cons hn]; exact List.mem_cons_self)
    rw [Reader.btoksLoop, show Reader.unbuffered.bget (i :: f) = some (some i, f) from rfl, Option.bind_some, bgets]
    dsimp only
    simp only [hi, Bool.false_and, Bool.false_eq_true, if_false, Bool.not_false, Bool.true_and, decide_eq_true_eq]
    by_cases hn : i = '\n'
    · simp [hn]
    · rw [firstLine_cons hn] at hnot
      have ih := fun buf => unbuffered_btoksLoop_whole hmax f rounds buf (by omega)
        (fun c hc => hnot c (List.mem_cons_of_mem i hc)) hlf
      split
      · exact ih buf
      · rw [if_pos (show 1 ≤ max from hmax), ih, List.append_assoc, List.singleton_append]

/-! ### The line and its fields -/

/-- Without `tokfinal`, the loop that may still start `max - num` tokens splits the rest of the line that often. -/
theorem btoksLoop_splitMax (htok : tok ≠ '\r' ∧ tok ≠ '\n') : ∀ (f : Text) (num : Nat), num ≤ max →
    btoksLoop tok max false num f = (num + (splitMax tok (max - num) (dropCr (firstLine f))).length - 1,
      splitMax tok (max - num) (dropCr (firstLine f)), afterLine f)
  | [], num, _ => by simp [btoksLoop, dropCr, splitMax_nil]
  | i :: f, num, hnum => by
    have hpos := List.length_pos_iff.mpr (@splitMax_ne_nil tok (max - num) (dropCr (firstLine f)))
    rw [btoksLoop]
    dsimp only
    by_cases hi : i = tok
    · have hn : i ≠ '\n' := hi ▸ htok.2
      have hcr : dropCr (tok :: firstLine f) = tok :: dropCr (firstLine f) := List.filter_cons_of_pos (by simpa using htok.1)
      rw [firstLine_cons hn, afterLine_cons hn, hi, hcr]
      simp only [decide_true, Bool.true_and, decide_eq_true_eq, Bool.false_eq_true, if_false, ne_eq, not_true_eq_false,
        decide_false, Bool.false_and, Bool.and_false]
      split
      · next hlt =>
        have hsub : max - num = max - (num + 1) + 1 := by omega
        have hpos' := List.length_pos_iff.mpr (@splitMax_ne_nil tok (max - (num + 1)) (dropCr (firstLine f)))
        rw [btoksLoop_splitMax htok f (num + 1) (by omega), hsub, splitMax_sep, List.length_cons]
        exact congrArg (·, _) (by omega)
      · next hge =>
        have hsub : max - num = 0 := by omega
        rw [btoksLoop_splitMax htok f num hnum, hsub]
        rfl
    · simp only [hi, decide_false, Bool.false_and, Bool.false_eq_true, if_false, ne_eq, not_false_eq_true, decide_true,
        Bool.true_and, decide_eq_true_eq]
      rw [btoksLoop_splitMax htok f num hnum]
      by_cases hcr : i = '\r'
      · have hn : i ≠ '\n' := by
          rw [hcr]
          decide
        rw [if_pos hcr, firstLine_cons hn, afterLine_cons hn, hcr]
        simp [dropCr]
      · rw [if_neg hcr]
        by_cases hn : i = '\n'
        · rw [if_pos hn, hn, firstLine_newline, afterLine_newline]
          simp [dropCr, splitMax_nil]
        · have hkeep : dropCr (i :: firstLine f) = i :: dropCr (firstLine f) := List.filter_cons_of_pos (by simpa using hcr)
          rw [if_neg hn, if_pos hnum, firstLine_cons hn, afterLine_cons hn, hkeep, splitMax_cons hi, List.length_modifyHead]

theorem length_fieldsOf (hmax : 0 < max) (line : Text) :
    (fieldsOf tok max tokfinal line).2.length = min (fieldsOf tok max tokfinal line).1 max := by
  unfold fieldsOf
  split
  · rw [List.length_take, Nat.min_comm]
  · have := @length_splitMax_le tok (max - 1) line
    dsimp only
    omega

theorem fieldsOf_cstr {line : Text} (hnul : nul ∉ line) :
    (fieldsOf tok max tokfinal line).2.map cstr = (fieldsOf tok max tokfinal line).2 := by
  have hsub : ∀ t ∈ (fieldsOf tok max tokfinal line).2, t ⊆ line := fun t ht => by
    unfold fieldsOf at ht
    split at ht
    · exact (mem_split (List.mem_of_mem_take ht)).2
    · exact mem_splitMax ht
  exact (List.map_congr_left fun t ht => cstr_of_not_mem fun h => hnul (hsub t ht h)).trans (List.map_id _)

theorem fieldsOf_whole {line : Text} (h : tok ∉ line ∨ tokfinal = false ∧ max = 1) (hmax : 0 < max) :
    fieldsOf tok max tokfinal line = (1, [line]) := by
  unfold fieldsOf
  rcases h with hnot | ⟨rfl, rfl⟩
  · rw [split_of_not_mem hnot, splitMax_of_not_mem hnot]
    cases tokfinal with
    | true => simp [List.take_of_length_le, show 1 ≤ max from hmax]
    | false => rfl
  · rfl

/-- A separator in the line makes two fields, unless the first may have all of it. -/
theorem fieldsOf_two {line : Text} (hmem : tok ∈ line) (hmax : 0 < max) (h : ¬(tokfinal = false ∧ max = 1)) :
    2 ≤ (fieldsOf tok max tokfinal line).1 := by
  obtain ⟨s, t, rfl, hs⟩ := List.eq_append_cons_of_mem hmem
  unfold fieldsOf
  cases tokfinal with
  | true =>
    obtain ⟨u, rest, -, hsplit⟩ := @goodstrtok_split tok t
    simp [split_append hs, hsplit]
  | false =>
    obtain ⟨n, hn⟩ : ∃ n, max - 1 = n + 1 := ⟨max - 2, by simp at h; omega⟩
    have hpos := List.length_pos_iff.mpr (@splitMax_ne_nil tok n t)
    rw [hn, splitMax_append hs]
    exact Nat.succ_le_succ hpos

/-- While the separator is seen, `btoks` gives the fields of the line. -/
theorem unbuffered_btoks_fields (hseen : ∀ i, isTok signed tok i = decide (i = tok)) (htok : tok ≠ '\r' ∧ tok ≠ '\n')
    (hmax : 0 < max) (hnul : nul ∉ f) {rounds : Nat} (hrounds : f.length < rounds) :
    Reader.btoks .unbuffered signed tok max tokfinal rounds f =
      some ((fieldsOf tok max tokfinal (bgets f).1).1, (fieldsOf tok max tokfinal (bgets f).1).2, (bgets f).2) := by
  have hloop : btoksLoop tok max tokfinal 1 f =
      ((fieldsOf tok max tokfinal (bgets f).1).1, (fieldsOf tok max tokfinal (bgets f).1).2, (bgets f).2) := by
    rw [bgets_eq]
    unfold fieldsOf
    cases tokfinal with
    | true =>
      rw [btoksLoop_eq htok, if_pos (show 1 ≤ max from hmax), Nat.add_sub_cancel, Nat.add_sub_cancel_left]
      rfl
    | false =>
      rw [btoksLoop_splitMax htok f 1 hmax, Nat.add_sub_cancel_left]
      rfl
  have hline : nul ∉ (bgets f).1 := by
    rw [bgets_eq]
    exact fun h => hnul ((List.takeWhile_sublist _).subset ((List.filter_sublist).subset h))
  obtain ⟨buf, toks, heq, hlaid⟩ := @unbuffered_btoksLoop_eq tok max tokfinal signed hseen f rounds 1 [] [0] [] [] hrounds
    (.first [])
  rw [List.nil_append, modifyHead_nil_append, hloop] at hlaid
  rw [hloop] at heq
  have hlen := hlaid.length_eq
  rw [length_fieldsOf hmax] at hlen
  unfold Reader.btoks
  rw [heq, Option.map_some]
  dsimp only
  rw [List.take_of_length_le hlen.le, hlaid.toks_eq, fieldsOf_cstr hline]

/-- Where the separator is not seen, `btoks` gives the whole line. -/
theorem unbuffered_btoks_whole (hnot : ∀ i ∈ firstLine f, isTok signed tok i = false) (htok : tok ≠ '\n') (hmax : 0 < max)
    (hnul : nul ∉ f) {rounds : Nat} (hrounds : f.length < rounds) :
    Reader.btoks .unbuffered signed tok max tokfinal rounds f = some (1, [(bgets f).1], (bgets f).2) := by
  have hlf : isTok signed tok '\n' = false := by simp [isTok, Ne.symm htok]
  have hline : nul ∉ (bgets f).1 := by
    rw [bgets_eq]
    exact fun h => hnul ((List.takeWhile_sublist _).subset ((List.filter_sublist).subset h))
  unfold Reader.btoks
  rw [unbuffered_btoksLoop_whole hmax f rounds [] hrounds hnot hlf, Option.map_some, List.nil_append]
  dsimp only
  rw [Nat.min_eq_left hmax, List.take_succ_cons, List.take_zero, List.map_singleton, List.drop_zero, cstr_of_not_mem hline]

/-! ### Through the buffer -/

namespace CBuffy
variable {σ : Type} {B : Bfill σ} {b : CBuffy σ} {rounds : Nat}

/-- `btoks` swallows what `bgets` swallows, and gives the fields of the line that `bgets` gives. -/
def SplitsLine (B : Bfill σ) (signed : Bool) (tok : Char) (max : Nat) (tokfinal : Bool) (rounds : Nat)
    (b : CBuffy σ) : Prop :=
  ∃ n line b₁ b₂ f', (Reader.buffered B).bgets rounds b = some (n, line, b₁) ∧ Holds B b₁ f' ∧
    (Reader.buffered B).btoks signed tok max tokfinal rounds b =
      some ((fieldsOf tok max tokfinal line).1, (fieldsOf tok max tokfinal line).2, b₂) ∧ Holds B b₂ f'

theorem bgets_holds (h : Holds B b f) (hrounds : f.length < rounds) : ∃ n b', (Reader.buffered B).bgets rounds b =
    some (n, (bgets f).1, b') ∧ Holds B b' (bgets f).2 := by
  obtain ⟨b', hloop, hb'⟩ := buffered_follows.bgetsLoop rounds 0 [] b f h (unbuffered_bgetsLoop_eq f rounds 0 [] hrounds)
  exact ⟨_, b', hloop, hb'⟩

/-- With what `btoks` gives on the stream, `SplitsLine` compares fields with fields. -/
theorem splitsLine_iff (h : Holds B b f) (hrounds : f.length < rounds) {num : Nat} {toks : List Text}
    (hplain : Reader.btoks .unbuffered signed tok max tokfinal rounds f = some (num, toks, (bgets f).2)) :
    SplitsLine B signed tok max tokfinal rounds b ↔ (num, toks) = fieldsOf tok max tokfinal (bgets f).1 := by
  obtain ⟨n, b₁, hgets, hb₁⟩ := bgets_holds h hrounds
  obtain ⟨b₂, htoks, hb₂⟩ := buffered_follows.btoks h hplain
  unfold SplitsLine
  rw [hgets, htoks]
  constructor
  · rintro ⟨n', line, b₁', b₂', f', heq, -, heq', -⟩
    cases heq
    cases heq'
    rfl
  · intro heq
    exact ⟨n, _, b₁, b₂, _, rfl, hb₁, by rw [← heq], hb₂⟩

/-- A `char` that compares equal to the byte. -/
theorem isTok_eq (h : signed = false ∨ tok.toNat < 0x80) (i : Char) : isTok signed tok i = decide (i = tok) := by
  unfold isTok
  rcases h with rfl | h
  · simp
  · simp [Nat.not_le.mpr h]

theorem isTok_of_high (hsigned : signed = true) (hhigh : 0x80 ≤ tok.toNat) (i : Char) : isTok signed tok i = false := by
  simp [isTok, hsigned, hhigh]

/-- In every state of the buffer, on every stream: `btoks` is `bgets` and splitting exactly when the separator
    compares equal to its byte, or is not in the line, or would not split it. -/
theorem btoks_splitsLine (h : Holds B b f) (hnul : nul ∉ f) (htok : tok ≠ '\r' ∧ tok ≠ '\n') (hmax : 0 < max)
    (hrounds : f.length < rounds) : SplitsLine B signed tok max tokfinal rounds b ↔
      signed = false ∨ tok.toNat < 0x80 ∨ tok ∉ firstLine f ∨ tokfinal = false ∧ max = 1 := by
  have hline : tok ∈ (bgets f).1 ↔ tok ∈ firstLine f := by
    rw [bgets_eq]
    simp [dropCr, htok.1]
  by_cases hseen : signed = false ∨ tok.toNat < 0x80
  · rw [splitsLine_iff h hrounds (unbuffered_btoks_fields (isTok_eq hseen) htok hmax hnul hrounds)]
    exact iff_of_true rfl (hseen.imp_right Or.inl)
  · obtain ⟨hsigned, hhigh⟩ := not_or.mp hseen
    have hnot := isTok_of_high (Bool.not_eq_false _ ▸ hsigned) (not_lt.mp hhigh)
    rw [splitsLine_iff h hrounds (unbuffered_btoks_whole (fun i _ => hnot i) htok.2 hmax hnul hrounds)]
    rw [or_iff_right hsigned, or_iff_right hhigh, ← hline]
    constructor
    · intro heq
      by_contra hcon
      rw [not_or, not_not] at hcon
      have htwo := fieldsOf_two hcon.1 hmax hcon.2
      rw [← heq] at htwo
      exact absurd htwo (Nat.not_succ_le_self 1)
    · exact fun hwhole => (fieldsOf_whole hwhole hmax).symm

theorem btoks_splitsLine_tab :
    SplitsLine Bfill.short true '\t' 2 true 8 ⟨0, 0, fun _ => nul, ("a\t\tb\r\nc".toList, [0, 1])⟩ ↔
      true = false ∨ '\t'.toNat < 0x80 ∨ '\t' ∉ firstLine "a\t\tb\r\nc".toList ∨ true = false ∧ 2 = 1 :=
  btoks_splitsLine (B := Bfill.short) (f := "a\t\tb\r\nc".toList) holds_new (by decide) (by decide) (by decide) (by decide)

/-- A separator above ASCII in the line, where a `char` is signed. -/
theorem not_splitsLine_high :
    ¬SplitsLine Bfill.short true 'é' 2 true 5 ⟨0, 0, fun _ => nul, ("aéb\n".toList, [])⟩ := by
  have hholds : Holds Bfill.short ⟨0, 0, fun _ => nul, ("aéb\n".toList, [])⟩ "aéb\n".toList := holds_new
  rw [splitsLine_iff hholds (by decide) (unbuffered_btoks_whole (fun i _ => isTok_of_high rfl (by decide) i) (by decide)
    (by decide) (by decide) (by decide))]
  decide

end CBuffy
end Nget

import Nget.CBuffy

/-! The buffer is transparent: however `bfill` cuts the stream, every call gives what it gives on the stream itself. -/

namespace Nget

/-! ### Readers that follow one another -/

namespace Reader
variable {σ τ : Type} {R : Reader σ} {S : Reader τ} {rel : σ → τ → Prop} {signed : Bool} {s : σ} {t t' : τ}

/-- Whatever `S` gives in a state, `R` gives in a state that goes with it. -/
structure Follows (R : Reader σ) (S : Reader τ) (rel : σ → τ → Prop) : Prop where
  bpeek : ∀ {s t i t'}, rel s t → S.bpeek t = some (i, t') → ∃ s', R.bpeek s = some (i, s') ∧ rel s' t'
  bget : ∀ {s t i t'}, rel s t → S.bget t = some (i, t') → ∃ s', R.bget s = some (i, s') ∧ rel s' t'
  beof : ∀ {s t i t'}, rel s t → S.beof t = some (i, t') → ∃ s', R.beof s = some (i, s') ∧ rel s' t'

theorem Follows.bgetsLoop (h : Follows R S rel) : ∀ rounds rcount buf s t, rel s t → ∀ {n line t'},
    bgetsLoop S rounds rcount buf t = some (n, line, t') →
      ∃ s', bgetsLoop R rounds rcount buf s = some (n, line, s') ∧ rel s' t'
  | 0, _, _, _, _, _, _, _, _, hS => by cases hS
  | rounds + 1, rcount, buf, s, t, hrel, n, line, t', hS => by
    unfold Reader.bgetsLoop at hS ⊢
    obtain ⟨⟨i, t₁⟩, hget, hS⟩ := Option.bind_eq_some_iff.mp hS
    obtain ⟨s₁, hgetR, hrel₁⟩ := h.bget hrel hget
    rw [hgetR, Option.bind_some]
    cases i with
    | none =>
      cases hS
      exact ⟨s₁, rfl, hrel₁⟩
    | some i =>
      dsimp only at hS ⊢
      split at hS
      · next hcr =>
        rw [if_pos hcr]
        exact h.bgetsLoop rounds _ _ s₁ t₁ hrel₁ hS
      · next hcr =>
        rw [if_neg hcr]
        split at hS
        · next hlf =>
          rw [if_pos hlf]
          cases hS
          exact ⟨s₁, rfl, hrel₁⟩
        · next hlf =>
          rw [if_neg hlf]
          exact h.bgetsLoop rounds _ _ s₁ t₁ hrel₁ hS

theorem Follows.btoksLoop (h : Follows R S rel) {tok : Char} {max : Nat} {tokfinal : Bool} :
    ∀ rounds num buf toks s t, rel s t → ∀ {n buf' toks' t'},
      btoksLoop S signed tok max tokfinal rounds num buf toks t = some (n, buf', toks', t') →
        ∃ s', btoksLoop R signed tok max tokfinal rounds num buf toks s = some (n, buf', toks', s') ∧ rel s' t'
  | 0, _, _, _, _, _, _, _, _, _, _, hS => by cases hS
  | rounds + 1, num, buf, toks, s, t, hrel, n, buf', toks', t', hS => by
    unfold Reader.btoksLoop at hS ⊢
    obtain ⟨⟨i, t₁⟩, hget, hS⟩ := Option.bind_eq_some_iff.mp hS
    obtain ⟨s₁, hgetR, hrel₁⟩ := h.bget hrel hget
    rw [hgetR, Option.bind_some]
    cases i with
    | none =>
      cases hS
      exact ⟨s₁, rfl, hrel₁⟩
    | some i =>
      dsimp only at hS ⊢
      -- The branches go by the byte alone; each but the end of the line goes on.
      split_ifs at hS ⊢ with h₁ h₂ h₃ h₄
      · exact h.btoksLoop rounds _ _ _ s₁ t₁ hrel₁ hS
      · exact h.btoksLoop rounds _ _ _ s₁ t₁ hrel₁ hS
      · exact h.btoksLoop rounds _ _ _ s₁ t₁ hrel₁ hS
      · cases hS
        exact ⟨s₁, rfl, hrel₁⟩
      · exact h.btoksLoop rounds _ _ _ s₁ t₁ hrel₁ hS
      · exact h.btoksLoop rounds _ _ _ s₁ t₁ hrel₁ hS

theorem Follows.btoks (h : Follows R S rel) {tok : Char} {max : Nat} {tokfinal : Bool} {rounds n : Nat} {ts : List Text}
    (hrel : rel s t) (hS : btoks S signed tok max tokfinal rounds t = some (n, ts, t')) :
    ∃ s', btoks R signed tok max tokfinal rounds s = some (n, ts, s') ∧ rel s' t' := by
  unfold Reader.btoks at hS ⊢
  obtain ⟨⟨num, buf, toks, t₁⟩, hloop, hS⟩ := Option.map_eq_some_iff.mp hS
  cases hS
  obtain ⟨s', hR, hrel'⟩ := h.btoksLoop rounds 1 [] [0] s t hrel hloop
  exact ⟨s', by rw [hR]; rfl, hrel'⟩

theorem Follows.call (h : Follows R S rel) {rounds : Nat} {c : Call} {r : Result} (hrel : rel s t)
    (hS : S.call signed rounds t c = some (r, t')) : ∃ s', R.call signed rounds s c = some (r, s') ∧ rel s' t' := by
  cases c with
  | bpeek =>
    obtain ⟨⟨i, t₁⟩, hop, heq⟩ := Option.map_eq_some_iff.mp hS
    cases heq
    obtain ⟨s', hR, hrel'⟩ := h.bpeek hrel hop
    exact ⟨s', by simp [Reader.call, hR], hrel'⟩
  | bget =>
    obtain ⟨⟨i, t₁⟩, hop, heq⟩ := Option.map_eq_some_iff.mp hS
    cases heq
    obtain ⟨s', hR, hrel'⟩ := h.bget hrel hop
    exact ⟨s', by simp [Reader.call, hR], hrel'⟩
  | bgets =>
    obtain ⟨⟨n, buf, t₁⟩, hop, heq⟩ := Option.map_eq_some_iff.mp hS
    cases heq
    obtain ⟨s', hR, hrel'⟩ := h.bgetsLoop rounds 0 [] s t hrel hop
    exact ⟨s', by simp [Reader.call, Reader.bgets, hR], hrel'⟩
  | btoks tok max tokfinal =>
    obtain ⟨⟨n, ts, t₁⟩, hop, heq⟩ := Option.map_eq_some_iff.mp hS
    cases heq
    obtain ⟨s', hR, hrel'⟩ := h.btoks hrel hop
    exact ⟨s', by simp [Reader.call, hR], hrel'⟩
  | beof =>
    obtain ⟨⟨i, t₁⟩, hop, heq⟩ := Option.map_eq_some_iff.mp hS
    cases heq
    obtain ⟨s', hR, hrel'⟩ := h.beof hrel hop
    exact ⟨s', by simp [Reader.call, hR], hrel'⟩

theorem Follows.calls (h : Follows R S rel) {rounds : Nat} : ∀ {cs : List Call} {rs : List Result} {s t t'}, rel s t →
    S.calls signed rounds cs t = some (rs, t') → ∃ s', R.calls signed rounds cs s = some (rs, s') ∧ rel s' t'
  | [], _, s, _, _, hrel, hS => by
    cases hS
    exact ⟨s, rfl, hrel⟩
  | c :: cs, _, s, t, t', hrel, hS => by
    obtain ⟨⟨r, t₁⟩, hcall, hS⟩ := Option.bind_eq_some_iff.mp hS
    obtain ⟨⟨rs, t₂⟩, hrest, heq⟩ := Option.map_eq_some_iff.mp hS
    cases heq
    obtain ⟨s₁, hR, hrel₁⟩ := h.call hrel hcall
    obtain ⟨s₂, hRs, hrel₂⟩ := h.calls hrel₁ hrest
    exact ⟨s₂, by simp [Reader.calls, hR, hRs], hrel₂⟩

/-! ### The stream itself gives every call a result -/

theorem unbuffered_bgetsLoop : ∀ rounds rcount buf (f : Text), f.length < rounds →
    ∃ n line f', bgetsLoop unbuffered rounds rcount buf f = some (n, line, f') ∧ f'.length ≤ f.length
  | rounds + 1, rcount, buf, [], _ => ⟨_, _, _, rfl, le_rfl⟩
  | rounds + 1, rcount, buf, i :: f, hrounds => by
    rw [List.length_cons] at hrounds
    have ih := fun rcount buf => unbuffered_bgetsLoop rounds rcount buf f (by omega)
    unfold bgetsLoop
    simp only [unbuffered, List.head?_cons, List.tail_cons, Option.bind_some]
    split_ifs
    · obtain ⟨n, line, f', hloop, hlen⟩ := ih (rcount + 1) buf
      exact ⟨n, line, f', hloop, hlen.trans (Nat.le_succ _)⟩
    · exact ⟨_, _, _, rfl, Nat.le_succ _⟩
    · obtain ⟨n, line, f', hloop, hlen⟩ := ih (rcount + 1) (buf ++ [i])
      exact ⟨n, line, f', hloop, hlen.trans (Nat.le_succ _)⟩

theorem unbuffered_btoksLoop {tok : Char} {max : Nat} {tokfinal : Bool} : ∀ rounds num buf toks (f : Text),
    f.length < rounds → ∃ n buf' toks' f', btoksLoop unbuffered signed tok max tokfinal rounds num buf toks f =
      some (n, buf', toks', f') ∧
      f'.length ≤ f.length
  | rounds + 1, num, buf, toks, [], _ => ⟨_, _, _, _, rfl, le_rfl⟩
  | rounds + 1, num, buf, toks, i :: f, hrounds => by
    rw [List.length_cons] at hrounds
    have ih : ∀ num buf toks, ∃ n buf' toks' f', btoksLoop unbuffered signed tok max tokfinal rounds num buf toks f =
        some (n, buf', toks', f') ∧ f'.length ≤ (i :: f).length := fun num buf toks => by
      obtain ⟨n, buf', toks', f', hloop, hlen⟩ := unbuffered_btoksLoop rounds num buf toks f (by omega)
      exact ⟨n, buf', toks', f', hloop, hlen.trans (Nat.le_succ _)⟩
    unfold btoksLoop
    simp only [unbuffered, List.head?_cons, List.tail_cons, Option.bind_some]
    split_ifs
    · exact ih _ _ _
    · exact ih _ _ _
    · exact ih _ _ _
    · exact ⟨_, _, _, _, rfl, Nat.le_succ _⟩
    · exact ih _ _ _
    · exact ih _ _ _

theorem unbuffered_call {rounds : Nat} {f : Text} (hrounds : f.length < rounds) (c : Call) :
    ∃ r f', unbuffered.call signed rounds f c = some (r, f') ∧ f'.length ≤ f.length := by
  cases c with
  | bpeek => exact ⟨_, _, rfl, le_rfl⟩
  | bget => exact ⟨_, _, rfl, by simp⟩
  | beof => exact ⟨_, _, rfl, le_rfl⟩
  | bgets =>
    obtain ⟨n, line, f', hloop, hlen⟩ := unbuffered_bgetsLoop rounds 0 [] f hrounds
    exact ⟨.line n line, f', by simp [call, bgets, hloop], hlen⟩
  | btoks tok max tokfinal =>
    obtain ⟨n, buf, toks, f', hloop, hlen⟩ := @unbuffered_btoksLoop signed tok max tokfinal rounds 1 [] [0] f hrounds
    refine ⟨.toks n ((toks.take (min n max)).map fun i => CString.cstr (buf.drop i)), f', ?_, hlen⟩
    simp only [call, btoks, hloop, Option.map_some]

theorem unbuffered_calls {rounds : Nat} : ∀ (cs : List Call) {f : Text}, f.length < rounds →
    ∃ rs f', unbuffered.calls signed rounds cs f = some (rs, f')
  | [], _, _ => ⟨_, _, rfl⟩
  | c :: cs, f, hrounds => by
    obtain ⟨r, f₁, hcall, hlen⟩ := @unbuffered_call signed rounds f hrounds c
    obtain ⟨rs, f₂, hrest⟩ := unbuffered_calls cs (hlen.trans_lt hrounds)
    exact ⟨r :: rs, f₂, by simp [calls, hcall, hrest]⟩

end Reader

/-! ### The buffer -/

namespace CBuffy
variable {σ : Type} {B : Bfill σ} {b : CBuffy σ} {f : Text} {c : Char}

/-- The unread bytes of the buffer and what `bfill` has still to give are the text `f`. -/
structure Holds (B : Bfill σ) (b : CBuffy σ) (f : Text) : Prop where
  bhead_lt : b.bhead < bufsize
  btail_lt : b.btail < bufsize
  unread : f = RingBuffer.content bufsize b.bhead b.btail b.buf ++ B.rest b.src

theorem and_bufmask {i : Nat} : i &&& bufmask = i % bufsize := Nat.and_two_pow_sub_one_eq_mod i 11

/-- An empty buffer has room, and no more than there is in one piece. -/
theorem buftailfree_spec (hb : b.btail < bufsize) (hempty : b.bhead = b.btail) :
    0 < b.buftailfree ∧ b.buftailfree ≤ b.freeRun ∧ b.btail + b.buftailfree ≤ bufsize ∧ b.buftailfree < bufsize := by
  unfold buftailfree freeRun
  unfold bufsize at hb ⊢
  rw [if_pos hempty.le, if_pos hempty.le, hempty]
  split <;> omega

/-- `dofill` of an empty buffer: at the end of the stream it stays empty, else it is filled. -/
theorem dofill_spec (h : Holds B b f) (hempty : b.bhead = b.btail) :
    (∃ b', dofill B b = some (0, b') ∧ f = [] ∧ Holds B b' [] ∧ b'.bhead = b'.btail) ∨
      ∃ i b', dofill B b = some (i, b') ∧ i ≠ 0 ∧ Holds B b' f ∧ b'.bhead ≠ b'.btail := by
  obtain ⟨hpos, hrun, hend, hlt⟩ := buftailfree_spec h.btail_lt hempty
  have hrest : f = B.rest b.src := by
    rw [h.unread, hempty, RingBuffer.content_self h.btail_lt, List.nil_append]
  have hlen := B.length_le b.src b.buftailfree
  have heq := B.rest_eq b.src b.buftailfree
  have hatEnd := B.at_end b.src b.buftailfree hpos
  unfold dofill
  rw [if_pos hrun]
  generalize B.bfill b.src b.buftailfree = filled at hlen heq hatEnd
  obtain ⟨bytes, src⟩ := filled
  dsimp only at hlen heq hatEnd ⊢
  split
  · next hzero =>
    obtain rfl := List.length_eq_zero_iff.mp hzero
    have hnil := hatEnd rfl
    refine Or.inl ⟨_, rfl, hrest.trans hnil, ⟨h.bhead_lt, h.btail_lt, ?_⟩, hempty⟩
    rw [hnil, List.nil_append] at heq
    dsimp only
    rw [← heq, hempty, RingBuffer.content_self h.btail_lt]
    rfl
  · next hne =>
    have hsize : RingBuffer.size bufsize b.bhead b.btail = 0 := (RingBuffer.size_eq_zero_iff h.bhead_lt h.btail_lt).mpr hempty
    have hfill := @RingBuffer.content_fill Char bufsize b.bhead b.btail b.buf bytes h.bhead_lt h.btail_lt (by omega) (by omega)
    refine Or.inr ⟨_, _, rfl, hne, ⟨h.bhead_lt, ?_, ?_⟩, ?_⟩
    · simp only [inctail, and_bufmask]
      exact Nat.mod_lt _ (by decide)
    · simp only [inctail, and_bufmask]
      rw [hfill, hempty, RingBuffer.content_self h.btail_lt, List.nil_append, ← heq, hrest]
    · simp only [inctail, and_bufmask]
      intro hsame
      rw [← hsame, RingBuffer.content_self h.bhead_lt] at hfill
      have := congrArg List.length hfill
      rw [List.length_nil, List.length_append] at this
      omega

/-- The byte at the head is the next one of the text. -/
theorem holds_inchead (h : Holds B b f) (hne : b.bhead ≠ b.btail) :
    ∃ f', f = b.buf b.bhead :: f' ∧ Holds B (b.inchead 1) f' := by
  refine ⟨_, ?_, ⟨?_, h.btail_lt, rfl⟩⟩
  · rw [h.unread, RingBuffer.content_pop h.bhead_lt h.btail_lt hne, List.cons_append]
    simp only [inchead, and_bufmask]
  · simp only [inchead, and_bufmask]
    exact Nat.mod_lt _ (by decide)

theorem bpeek_holds (h : Holds B b f) : ∃ b', bpeek B b = some (f.head?, b') ∧ Holds B b' f := by
  unfold bpeek
  split
  · next hempty =>
    obtain ⟨b', hfill, rfl, hb', -⟩ | ⟨i, b', hfill, hi, hb', hne⟩ := dofill_spec h hempty
    · exact ⟨b', by rw [hfill]; rfl, hb'⟩
    · obtain ⟨f', rfl, -⟩ := holds_inchead hb' hne
      exact ⟨b', by simp [hfill, hi], hb'⟩
  · next hne =>
    obtain ⟨f', rfl, -⟩ := holds_inchead h hne
    exact ⟨b, rfl, h⟩

theorem bget_holds (h : Holds B b f) : ∃ b', bget B b = some (f.head?, b') ∧ Holds B b' f.tail := by
  unfold bget
  split
  · next hempty =>
    obtain ⟨b', hfill, rfl, hb', -⟩ | ⟨i, b', hfill, hi, hb', hne⟩ := dofill_spec h hempty
    · exact ⟨b', by rw [hfill]; rfl, hb'⟩
    · obtain ⟨f', rfl, hf'⟩ := holds_inchead hb' hne
      exact ⟨b'.inchead 1, by simp [hfill, hi], hf'⟩
  · next hne =>
    obtain ⟨f', rfl, hf'⟩ := holds_inchead h hne
    exact ⟨b.inchead 1, rfl, hf'⟩

theorem beof_holds (h : Holds B b f) : ∃ b', beof B b = some (f.isEmpty, b') ∧ Holds B b' f := by
  unfold beof
  split
  · next hne =>
    obtain ⟨f', rfl, -⟩ := holds_inchead h (Ne.symm hne)
    exact ⟨b, rfl, h⟩
  · next hempty =>
    obtain ⟨b', hfill, rfl, hb', -⟩ | ⟨i, b', hfill, hi, hb', hne⟩ := dofill_spec h (not_not.mp hempty).symm
    · exact ⟨b', by rw [hfill]; rfl, hb'⟩
    · obtain ⟨f', rfl, -⟩ := holds_inchead hb' hne
      exact ⟨b', by simp [hfill, hi], hb'⟩

theorem buffered_follows : (Reader.buffered B).Follows Reader.unbuffered (Holds B) where
  bpeek hrel hS := by
    cases hS
    exact bpeek_holds hrel
  bget hrel hS := by
    cases hS
    exact bget_holds hrel
  beof hrel hS := by
    cases hS
    exact beof_holds hrel

/-- A buffer that nothing was read through yet. -/
theorem holds_new {buf : Nat → Char} {src : σ} : Holds B ⟨0, 0, buf, src⟩ (B.rest src) :=
  have hzero : 0 < bufsize := by decide
  ⟨hzero, hzero, by rw [RingBuffer.content_self hzero]; rfl⟩

/-- However `bfill` cuts the stream, any calls through a new buffer return what they return on the stream
    itself, and none asks `bfill` for more than the room that there is. -/
theorem calls_transparent (B : Bfill σ) (buf : Nat → Char) (src : σ) (signed : Bool) (cs : List Reader.Call) (rounds : Nat)
    (hrounds : (B.rest src).length < rounds) :
    ∃ rs f b, Reader.unbuffered.calls signed rounds cs (B.rest src) = some (rs, f) ∧
      (Reader.buffered B).calls signed rounds cs ⟨0, 0, buf, src⟩ = some (rs, b) ∧ Holds B b f := by
  obtain ⟨rs, f, hplain⟩ := @Reader.unbuffered_calls signed rounds cs (B.rest src) hrounds
  obtain ⟨b, hbuf, hholds⟩ := buffered_follows.calls holds_new hplain
  exact ⟨rs, f, b, hplain, hbuf, hholds⟩

/-- A line that comes in four pieces. -/
theorem calls_transparent_pieces :
    ("ab\tc\r\nxy".toList).length < 9 ∧ ∃ rs f b,
      Reader.unbuffered.calls true 9 [.bpeek, .btoks '\t' 2 true, .beof, .bgets, .beof, .bget] "ab\tc\r\nxy".toList =
        some (rs, f) ∧
      (Reader.buffered Bfill.short).calls true 9 [.bpeek, .btoks '\t' 2 true, .beof, .bgets, .beof, .bget]
        ⟨0, 0, fun _ => 'q', ("ab\tc\r\nxy".toList, [0, 2, 0, 1])⟩ = some (rs, b) ∧ Holds Bfill.short b f :=
  ⟨by decide, calls_transparent Bfill.short (fun _ => 'q') ("ab\tc\r\nxy".toList, [0, 2, 0, 1]) true
    [.bpeek, .btoks '\t' 2 true, .beof, .bgets, .beof, .bget] 9 (by decide)⟩

end CBuffy
end Nget

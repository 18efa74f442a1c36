import Nget.Theorems.XoverWindow

/-! What `doxover` does to the session is the same with the connection and without it: the replies stand in
    the stream in the order of the ranges, each up to its terminator, and no assertion stops the run. -/

namespace Nget
open CString

/-- Two runs end alike, and in the same session. -/
def SameSession (streaming : StreamingM Streaming) (session : SessionM Session) : Prop :=
  (∃ st, streaming = .ok st ∧ session = .ok st.session) ∨
  ∃ e st, streaming = .error (.comm e, st) ∧ session = .error (e, st.session)

section
variable {decodeTextdate : Text → Int64} {serverid : UInt64} {group : Text} {now : Int64}
variable {low high : UInt64} {streamed : Int}

theorem reduce_session {n : UInt64} {st : Streaming} :
    st.reduce n = .ok { st with realtotal := st.realtotal - n } ∨
    st.reduce n = .error (.assertion, { st with realtotal := st.realtotal - n }) := by
  unfold Streaming.reduce
  dsimp only
  by_cases h : st.realtotal - n ≤ st.realtotal
  · exact Or.inl (if_pos h)
  · exact Or.inr (if_neg h)

/-- The same of the loop over the lines, which an assertion may stop. -/
def SameLines (streaming : StreamingM (UInt64 × Streaming)) (session : SessionM Session) : Prop :=
  (∃ last st, streaming = .ok (last, st) ∧ session = .ok st.session) ∨
  (∃ e st, streaming = .error (.comm e, st) ∧ session = .error (e, st.session)) ∨
  ∃ st, streaming = .error (.assertion, st)

/-- The lines of one reply, whatever follows it in the stream. -/
theorem xoverLines_session {more : List Text} :
    ∀ (lines : List Text) (last : UInt64) (st : Streaming), (∀ line ∈ lines, isDot line = false) →
    SameLines (xoverLines decodeTextdate serverid group now low high streamed (lines ++ ".".toList :: more) last st)
      (doxoverLines decodeTextdate serverid group now low high streamed (lines ++ [".".toList]) last st.session)
  | [], last, st, _ => by
    rw [List.nil_append, List.nil_append, xoverLines, doxoverLines, if_pos (by decide), if_pos (by decide)]
    exact Or.inl ⟨last, _, rfl, rfl⟩
  | line :: lines, last, st, hdots => by
    have hdot : ¬isDot line = true := by simp [hdots line List.mem_cons_self]
    have hrest : ∀ (last₁ : UInt64) (st₁ : Streaming),
        SameLines (xoverLines decodeTextdate serverid group now low high streamed (lines ++ ".".toList :: more) last₁ st₁)
          (doxoverLines decodeTextdate serverid group now low high streamed (lines ++ [".".toList]) last₁ st₁.session) :=
      fun last₁ st₁ => xoverLines_session lines last₁ st₁ fun l hl => hdots l (List.mem_cons_of_mem line hl)
    rw [List.cons_append, List.cons_append, xoverLines, doxoverLines, if_neg hdot, if_neg hdot]
    dsimp only
    by_cases hstreaming : (decide (countFields 0 (CString.split '\t' (cstr line)) ≤ 1) && decide (streamed ≠ 0) &&
        decide (atoul ((CString.split '\t' (cstr line)).getD 0 []) = 224)) = true
    · rw [if_pos hstreaming, if_pos hstreaming]
      exact Or.inr (Or.inl ⟨streamingError, _, rfl, rfl⟩)
    · rw [if_neg hstreaming, if_neg hstreaming]
      by_cases hfields : 7 < countFields 0 (CString.split '\t' (cstr line))
      · rw [if_pos hfields, if_pos hfields]
        generalize overviewHeader decodeTextdate serverid group (CString.split '\t' (cstr line)) = nh
        by_cases hweird : (decide (nh.articlenum < low) || decide (high < nh.articlenum)
          || decide (nh.articlenum < last)) = true
        · rw [if_pos hweird, if_pos hweird]
          exact hrest last { st with
            pending := lines ++ ".".toList :: more
            traffic := st.traffic ++ [.line line]
            session := { st.session with
              cache := (st.session.cache.additem nh now).1
              xoverWarn := st.session.xoverWarn + 1 } }
        · rw [if_neg hweird, if_neg hweird]
          obtain ⟨st₁, hst₁⟩ : ∃ st₁, st₁ = { st with
            pending := lines ++ ".".toList :: more
            traffic := st.traffic ++ [Traffic.line line]
            session := { st.session with cache := (st.session.cache.additem nh now).1 } } := ⟨_, rfl⟩
          rw [← hst₁]
          rcases @reduce_session (nh.articlenum - last) st₁ with hred | hred
          · rw [hred]
            have := hrest (nh.articlenum + 1) { st₁ with realtotal := st₁.realtotal - (nh.articlenum - last) }
            rw [hst₁] at this ⊢
            exact this
          · rw [hred]
            exact Or.inr (Or.inr ⟨_, rfl⟩)
      · rw [if_neg hfields, if_neg hfields]
        exact hrest last { st with
          pending := lines ++ ".".toList :: more
          traffic := st.traffic ++ [.line line]
          session := { st.session with xoverWarn := st.session.xoverWarn + 1 } }

/-- The commands that are written ahead. -/
theorem writeXovers_session {answer : Nat → UInt64 × UInt64 → XoverAnswer} :
    ∀ (ws : List (UInt64 × UInt64)) (streamed : Int) (st : Streaming),
    sendXovers ws streamed st.session =
      ((writeXovers answer ws streamed st).1, (writeXovers answer ws streamed st).2.1,
        (writeXovers answer ws streamed st).2.2.session)
  | [], _, _ => rfl
  | w :: ws, streamed, st => by
    rw [sendXovers, writeXovers]
    by_cases hless : streamed ≤ st.session.maxstreaming.toInt
    · rw [if_pos hless, if_pos hless]
      exact writeXovers_session ws (streamed + 1) (st.putXover answer w)
    · rw [if_neg hless, if_neg hless]

/-- The reply to one range, of which the stream holds what the server answered. -/
theorem readRange_session {r : UInt64 × UInt64} {a : XoverAnswer} {more : List Text} {st : Streaming}
    (hpending : st.pending = a.sent ++ more) (hdots : ∀ line ∈ a.lines, isDot line = false) :
    SameSession (readRange decodeTextdate serverid group now r streamed st)
      (chkreply st.session a.reply >>= fun _ =>
        doxoverLines decodeTextdate serverid group now r.2 r.1 streamed (a.lines ++ [".".toList]) r.2 st.session) ∨
    ∃ st', readRange decodeTextdate serverid group now r streamed st = .error (.assertion, st') := by
  have hsent : st.pending = a.reply :: (a.lines ++ ".".toList :: more) := by
    rw [hpending, XoverAnswer.sent]
    simp
  simp only [readRange, Streaming.getStatus, hsent, bind, Except.bind]
  cases hreply : chkreply st.session a.reply with
  | error stop => exact Or.inl (Or.inr ⟨stop.1, _, rfl, rfl⟩)
  | ok u =>
    dsimp only
    have hlines := @xoverLines_session decodeTextdate serverid group now r.2 r.1 streamed more a.lines r.2
      { st with pending := a.lines ++ ".".toList :: more, traffic := st.traffic ++ [Traffic.status a.reply] } hdots
    rcases hlines with ⟨last', st', hok, hsession⟩ | ⟨e, st', herror, hsession⟩ | ⟨st', hassert⟩
    · rw [hok, hsession]
      dsimp only
      rcases @reduce_session (r.1 - last' + 1) st' with hred | hred
      · exact Or.inl (Or.inl ⟨_, hred, rfl⟩)
      · exact Or.inr ⟨_, hred⟩
    · rw [herror, hsession]
      exact Or.inl (Or.inr ⟨e, st', rfl, rfl⟩)
    · rw [hassert]
      exact Or.inr ⟨st', rfl⟩

/-- What the server answers to a command, as the lines that are read for it. -/
def XoverAnswer.toAnswer (a : XoverAnswer) : Answer := ⟨a.reply, a.lines ++ [".".toList]⟩

theorem xoverRanges_session {answer : UInt64 × UInt64 → XoverAnswer} {m : Int32} (hm : 0 ≤ m)
    (hdots : ∀ r, ∀ line ∈ (answer r).lines, isDot line = false) :
    ∀ (rs ws ahead finished : List (UInt64 × UInt64)) (st : Streaming) (counted : Nat), rs = ahead ++ ws → Ascend rs →
      AtRange (fun _ => answer) (m.toInt.toNat + 1) m finished ahead st → ahead.length ≤ m.toInt.toNat + 1 →
      st.realtotal.toNat = counted + rangesSize rs →
        SameSession (xoverRanges decodeTextdate serverid group now (fun _ => answer) rs ws ahead.length st)
          (doxoverRanges decodeTextdate serverid group now (fun low high => (answer (high, low)).toAnswer)
            rs ws ahead.length st.session)
  | [], ws, ahead, finished, st, counted, _, _, _, _, _ => Or.inl ⟨st, rfl, rfl⟩
  | r :: rs, ws, ahead, finished, st, counted, hsplit, hascend, hat, hlen, hreal => by
    obtain ⟨more, rest, st₁, rfl, hwrite, hat₁, hlen₁, hreal₁, hne⟩ := writeXovers_spec hm ws ahead st hat hlen
    obtain ⟨r', ahead₁, hahead⟩ := List.exists_cons_of_ne_nil (hne (by simp [← hsplit]))
    obtain ⟨rfl, hrs⟩ : r' = r ∧ ahead₁ ++ rest = rs := by
      rw [← List.append_assoc, hahead, List.cons_append] at hsplit
      exact ⟨(List.cons.inj hsplit).1.symm, (List.cons.inj hsplit).2.symm⟩
    rw [hahead] at hat₁ hlen₁ hwrite
    rw [List.length_cons] at hlen₁
    have hsize : st₁.realtotal.toNat = counted + (rangeSize r' + rangesSize rs) := by
      rw [hreal₁, hreal, rangesSize, rangesSize, List.map_cons, List.sum_cons]
    have hstreamed : (((r' :: ahead₁).length : Nat) : Int) - 1 = (ahead₁.length : Int) := by simp
    have hsend := @writeXovers_session (fun _ => answer) (more ++ rest) ahead.length st
    rw [hwrite] at hsend
    have hpending : st₁.pending = (answer r').sent ++ repliesFrom (fun _ => answer) (finished.length + 1) ahead₁ := by
      rw [hat₁.pending]
      rfl
    rw [xoverRanges_cons hwrite, hstreamed, doxoverRanges, hsend]
    dsimp only
    rw [hstreamed]
    -- The reply to this range, and then the other ranges.
    show SameSession _ (chkreply st₁.session (answer r').reply >>= fun _ =>
      doxoverLines decodeTextdate serverid group now r'.2 r'.1 ahead₁.length ((answer r').lines ++ [".".toList])
        r'.2 st₁.session >>= fun st =>
        doxoverRanges decodeTextdate serverid group now (fun low high => (answer (high, low)).toAnswer)
          rs rest ahead₁.length st)
    rw [← bind_assoc]
    rcases @AtRange.reply (fun _ => answer) (m.toInt.toNat + 1)
      m finished ahead₁ st₁ decodeTextdate serverid group now r' counted (rangesSize rs)
        ahead₁.length (hdots _) (hascend.1 r' List.mem_cons_self) hat₁ hsize with
      ⟨e, st', hst', -, -⟩ | ⟨st₂, hst₂, hat₂, hreal₂⟩
    · rcases @readRange_session decodeTextdate serverid group now ahead₁.length r' (answer r') _ st₁ hpending (hdots r') with
        (⟨st₃, hok, -⟩ | ⟨e₃, st₃, herror, hsession⟩) | ⟨st₃, hassert⟩
      · rw [hok] at hst'
        cases hst'
      · rw [herror, hsession]
        exact Or.inr ⟨e₃, st₃, rfl, rfl⟩
      · rw [hassert] at hst'
        cases hst'
    · rcases @readRange_session decodeTextdate serverid group now ahead₁.length r' (answer r') _ st₁ hpending (hdots r') with
        (⟨st₃, hok, hsession⟩ | ⟨e₃, st₃, herror, -⟩) | ⟨st₃, hassert⟩
      · rw [hok] at hst₂
        cases hst₂
        rw [hok, hsession]
        exact xoverRanges_session hm hdots rs rest ahead₁ (finished ++ [r']) _ _ hrs.symm hascend.tail hat₂ (by omega) hreal₂
      · rw [herror] at hst₂
        cases hst₂
      · rw [hassert] at hst₂
        cases hst₂

/-- `doxover` with a connection and `doxover` on the answers of the server are one. -/
theorem doxoverStreaming_session {answer : UInt64 × UInt64 → XoverAnswer} {r : Nrange} {session : Session} (hr : r.Canonical)
    (hmax : ∀ e ∈ r.rlist, e.1 < Nrange.varmax) (hm : 0 ≤ session.maxstreaming)
    (hdots : ∀ r, ∀ line ∈ (answer r).lines, isDot line = false) :
    SameSession (doxoverStreaming decodeTextdate serverid group now (fun _ => answer) r session)
      (doxover decodeTextdate serverid group now (fun low high => (answer (high, low)).toAnswer) r session) := by
  have hascend := hr.ascend hmax
  unfold doxoverStreaming doxover
  by_cases hempty : r.empty = true
  · rw [if_pos hempty, if_pos hempty]
    exact Or.inl ⟨_, rfl, rfl⟩
  · rw [if_neg hempty, if_neg hempty]
    exact xoverRanges_session hm hdots r.rlist.entries r.rlist.entries [] []
      { session, realtotal := r.getTotal } 0 rfl hascend (AtRange.initial session r.getTotal rfl) (Nat.zero_le _)
      (by rw [getTotal_eq hascend, Nat.zero_add])

end
end Nget

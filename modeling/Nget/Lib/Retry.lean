import Mathlib

/-! Candidates that are tried in rounds. What comes of a try says whether the candidate stays for the next round, leaves, or
    ends the rounds altogether. -/

namespace Retry
variable {α ω W : Type}

inductive Verdict where
  | keep
  | drop
  | stop
deriving DecidableEq

structure Try (α ω : Type) where
  round : Nat
  candidate : α
  outcome : ω

/-- The tries so far, the candidates that are left, and whether one of the tries ended it. -/
structure Result (α ω W : Type) where
  tries : List (Try α ω)
  left : List α
  stopped : Bool
  world : W

section
variable (attempt : α → W → ω × W) (verdict : ω → Verdict)

/-- One round. -/
def pass (round : Nat) : List α → W → Result α ω W
  | [], w => ⟨[], [], false, w⟩
  | a :: as, w =>
    let (o, w) := attempt a w
    match verdict o with
    | .keep =>
      let r := pass round as w
      { r with tries := ⟨round, a, o⟩ :: r.tries, left := a :: r.left }
    | .drop =>
      let r := pass round as w
      { r with tries := ⟨round, a, o⟩ :: r.tries }
    | .stop => ⟨[⟨round, a, o⟩], a :: as, true, w⟩

/-- So many rounds, while candidates are left. -/
def rounds : Nat → Nat → List α → W → Result α ω W
  | 0, _, as, w => ⟨[], as, false, w⟩
  | n + 1, round, as, w =>
    if as.isEmpty then ⟨[], as, false, w⟩
    else
      let r := pass attempt verdict round as w
      if r.stopped then r
      else
        let r' := rounds n (round + 1) r.left r.world
        { r' with tries := r.tries ++ r'.tries }

end

section
variable [DecidableEq α] (verdict : ω → Verdict) (tries : List (Try α ω)) (m : Nat)

/-- A try before round `m` took the candidate out. -/
def isOut (c : α) : Bool := tries.any fun t => t.candidate = c && t.round < m && verdict t.outcome ≠ .keep

/-- The candidates that round `m` is for. -/
def due (l : List α) : List α := l.filter fun c => !isOut verdict tries m c

omit [DecidableEq α] in
/-- The candidates that are tried in round `m`. -/
def inRound : List α := (tries.filter (·.round = m)).map Try.candidate

/-- The tries go through `n` rounds from round `k` on. -/
structure InRounds (k n : Nat) (l : List α) (stopped : Bool) : Prop where
  bounds : ∀ t ∈ tries, (k ≤ t.round ∧ t.round < k + n) ∧ t.candidate ∈ l
  sorted : tries.Pairwise fun t t' => t.round ≤ t'.round
  /-- A round takes the candidates that are left to it in their order. -/
  order : ∀ m, k ≤ m → inRound tries m <+: due verdict tries m l
  /-- A round that is not the last one takes all of them. -/
  whole : ∀ m, k ≤ m → (∃ t ∈ tries, m < t.round) ∨ (stopped = false ∧ m < k + n) →
    inRound tries m = due verdict tries m l

/-- What becomes of the candidates. -/
structure Tried (n : Nat) (l : List α) (stopped : Bool) : Prop where
  /-- Nothing is tried behind a try that ends it. -/
  stops : tries.Pairwise fun t _ => verdict t.outcome ≠ .stop
  stopped_iff : stopped = true ↔ ∃ t ∈ tries, verdict t.outcome = .stop
  /-- A candidate is tried again only if its try kept it. -/
  again : tries.Pairwise fun t t' => t.candidate = t'.candidate → verdict t.outcome = .keep
  atMost : ∀ c, (tries.filter (·.candidate = c)).length ≤ n
  /-- Without an end, each candidate leaves or is kept in every round. -/
  exhausted : stopped = false → ∀ c ∈ l, (∃ t ∈ tries, t.candidate = c ∧ verdict t.outcome = .drop) ∨
    ((tries.filter (·.candidate = c)).length = n ∧ ∀ t ∈ tries, t.candidate = c → verdict t.outcome = .keep)

end

/-! ### One round -/

section
variable {attempt : α → W → ω × W} {verdict : ω → Verdict} {round k n m : Nat} {l : List α} {w : W}

structure Passed (verdict : ω → Verdict) (round : Nat) (l : List α) (r : Result α ω W) : Prop where
  round : ∀ t ∈ r.tries, t.round = round
  candidates : r.tries.map Try.candidate <+: l
  stops : r.tries.Pairwise fun t _ => verdict t.outcome ≠ .stop
  stopped_iff : r.stopped = true ↔ ∃ t ∈ r.tries, verdict t.outcome = .stop
  whole : r.stopped = false → r.tries.map Try.candidate = l
  left : r.stopped = false → r.left = (r.tries.filter (verdict ·.outcome = .keep)).map Try.candidate

theorem Passed.cons {a : α} {o : ω} {r : Result α ω W} {left : List α} (h : Passed verdict round l r)
    (ho : verdict o ≠ .stop) (hleft : left = if verdict o = .keep then a :: r.left else r.left) :
    Passed verdict round (a :: l) { r with tries := ⟨round, a, o⟩ :: r.tries, left := left } where
  round := List.forall_mem_cons.mpr ⟨rfl, h.round⟩
  candidates := by simpa using h.candidates
  stops := List.pairwise_cons.mpr ⟨fun _ _ => ho, h.stops⟩
  stopped_iff := by simpa [ho] using h.stopped_iff
  whole hstop := by simpa using h.whole hstop
  left hstop := by
    subst hleft
    by_cases hkeep : verdict o = .keep <;> simp [hkeep, h.left hstop]

theorem pass_passed : ∀ {l : List α} {w : W}, Passed verdict round l (pass attempt verdict round l w)
  | [], _ => ⟨by simp [pass], by simp [pass], by simp [pass], by simp [pass], fun _ => rfl, fun _ => rfl⟩
  | a :: as, w => by
    unfold pass
    generalize attempt a w = tried
    obtain ⟨o, w'⟩ := tried
    have ih := @pass_passed as w'
    dsimp only
    cases ho : verdict o with
    | keep => exact ih.cons (by simp [ho]) (by simp [ho])
    | drop => exact ih.cons (by simp [ho]) (by simp [ho])
    | stop => exact ⟨by simp, by simp, by simp, by simp [ho], by simp, by simp⟩

theorem pass_count {p : ω → Bool} {f : W → Nat} (h : ∀ a w, f (attempt a w).2 = f w + (p (attempt a w).1).toNat) :
    ∀ {l : List α} {w : W}, f (pass attempt verdict round l w).world =
      f w + (pass attempt verdict round l w).tries.countP (p ·.outcome)
  | [], _ => rfl
  | a :: as, w => by
    have hstep := h a w
    unfold pass
    generalize attempt a w = tried at hstep
    obtain ⟨o, w'⟩ := tried
    have ih := @pass_count p f h as w'
    have hcount : ∀ ts : List (Try α ω), (⟨round, a, o⟩ :: ts).countP (p ·.outcome) =
        ts.countP (p ·.outcome) + (p o).toNat := fun ts => by
      rw [List.countP_cons]
      cases p o <;> rfl
    dsimp only at hstep ⊢
    cases verdict o <;> simp only [hcount, ih, hstep, List.countP_nil] <;> omega

namespace Passed
variable {r : Result α ω W}

theorem nodup (h : Passed verdict round l r) (hl : l.Nodup) : (r.tries.map Try.candidate).Nodup :=
  hl.sublist h.candidates.sublist

/-- In one round no candidate is tried twice. -/
theorem eq_of_candidate (h : Passed verdict round l r) (hl : l.Nodup) {t t' : Try α ω} (ht : t ∈ r.tries) (ht' : t' ∈ r.tries)
    (heq : t.candidate = t'.candidate) : t = t' :=
  List.inj_on_of_nodup_map (h.nodup hl) ht ht' heq

theorem mem_left (h : Passed verdict round l r) (hstop : r.stopped = false) {c : α} :
    c ∈ r.left ↔ ∃ t ∈ r.tries, t.candidate = c ∧ verdict t.outcome = .keep := by
  rw [h.left hstop, List.mem_map]
  constructor
  · rintro ⟨t, ht, rfl⟩
    rw [List.mem_filter, decide_eq_true_eq] at ht
    exact ⟨t, ht.1, rfl, ht.2⟩
  · rintro ⟨t, ht, rfl, hkeep⟩
    exact ⟨t, List.mem_filter.mpr ⟨ht, by simpa using hkeep⟩, rfl⟩

theorem left_sublist (h : Passed verdict round l r) (hstop : r.stopped = false) : r.left.Sublist l := by
  rw [h.left hstop, ← h.whole hstop]
  exact (List.filter_sublist ..).map _

theorem again (h : Passed verdict round l r) (hl : l.Nodup) :
    r.tries.Pairwise fun t t' => t.candidate = t'.candidate → verdict t.outcome = .keep :=
  (List.pairwise_map.mp (h.nodup hl)).imp fun hne heq => absurd heq hne

theorem sorted (h : Passed verdict round l r) : r.tries.Pairwise fun t t' => t.round ≤ t'.round :=
  List.pairwise_of_forall_mem_list fun t ht t' ht' => ((h.round t ht).trans (h.round t' ht').symm).le

variable [DecidableEq α]

theorem atMost (h : Passed verdict round l r) (hl : l.Nodup) (c : α) : (r.tries.filter (·.candidate = c)).length ≤ 1 := by
  have hcount := List.nodup_iff_count_le_one.mp (h.nodup hl) c
  rwa [List.count, List.countP_map, List.countP_eq_length_filter] at hcount

end Passed

/-! ### The rounds -/

section
variable [DecidableEq α] {tries tries' : List (Try α ω)}

omit [DecidableEq α] in
theorem inRound_append : inRound (tries ++ tries') m = inRound tries m ++ inRound tries' m := by
  rw [inRound, List.filter_append, List.map_append, inRound, inRound]

omit [DecidableEq α] in
theorem inRound_eq_nil (h : ∀ t ∈ tries, t.round ≠ m) : inRound tries m = [] := by
  rw [inRound, List.filter_eq_nil_iff.mpr fun t ht => by simpa using h t ht, List.map_nil]

omit [DecidableEq α] in
theorem inRound_eq_map (h : ∀ t ∈ tries, t.round = m) : inRound tries m = tries.map Try.candidate := by
  rw [inRound, List.filter_eq_self.mpr fun t ht => by simpa using h t ht]

theorem due_append : due verdict (tries ++ tries') m l = due verdict tries' m (due verdict tries m l) := by
  rw [due, due, due, List.filter_filter]
  refine List.filter_congr fun c _ => ?_
  rw [isOut, List.any_append, Bool.not_or, Bool.and_comm]
  rfl

/-- Before the first try nobody is out. -/
theorem due_eq_self (h : ∀ t ∈ tries, m ≤ t.round) : due verdict tries m l = l := by
  refine List.filter_eq_self.mpr fun c _ => ?_
  rw [isOut, Bool.not_eq_true', List.any_eq_false]
  intro t ht
  simp [Nat.not_lt.mpr (h t ht)]

/-- Behind a round those are due that it left. -/
theorem Passed.due_eq {r : Result α ω W} (h : Passed verdict round l r) (hl : l.Nodup) (hstop : r.stopped = false)
    (hm : round < m) : due verdict r.tries m l = r.left := by
  rw [h.left hstop, ← h.whole hstop, due, List.filter_map]
  refine congrArg (List.map Try.candidate) (List.filter_congr fun t ht => ?_)
  rw [Bool.eq_iff_iff, Function.comp_apply, isOut, Bool.not_eq_true', List.any_eq_false, decide_eq_true_eq]
  constructor
  · intro hnone
    by_contra hkeep
    exact hnone t ht (by simp [hkeep, h.round t ht, hm])
  · intro hkeep t' ht' hout
    simp only [Bool.and_eq_true, decide_eq_true_eq, ne_eq, decide_not, Bool.not_eq_true', decide_eq_false_iff_not] at hout
    rw [h.eq_of_candidate hl ht' ht hout.1.1] at hout
    exact hout.2 hkeep

/-- A round that a try ended is the last one. -/
theorem Passed.inRounds {r : Result α ω W} (h : Passed verdict k l r) (hstop : r.stopped = true) :
    InRounds verdict r.tries k (n + 1) l r.stopped := by
  refine ⟨fun t ht => ?_, h.sorted, fun m hk => ?_, fun m hk hm => ?_⟩
  · have := h.round t ht
    exact ⟨by omega, h.candidates.subset (List.mem_map_of_mem ht)⟩
  · rcases hk.eq_or_lt with rfl | hlt
    · rw [inRound_eq_map h.round, due_eq_self fun t ht => (h.round t ht).ge]
      exact h.candidates
    · rw [inRound_eq_nil fun t ht => by have := h.round t ht; omega]
      exact List.nil_prefix
  · rcases hm with ⟨t, ht, hlt⟩ | ⟨hnot, -⟩
    · have := h.round t ht
      omega
    · exact absurd (hstop.symm.trans hnot) (by decide)

/-- A round in front of rounds with the candidates that it left. -/
theorem InRounds.behind {r : Result α ω W} {stopped : Bool} (hpass : Passed verdict k l r) (hl : l.Nodup)
    (hstop : r.stopped = false) (h : InRounds verdict tries' (k + 1) n r.left stopped) :
    InRounds verdict (r.tries ++ tries') k (n + 1) l stopped := by
  have hlater : ∀ t ∈ tries', k < t.round := fun t ht => (h.bounds t ht).1.1
  have hfirst : inRound (r.tries ++ tries') k = due verdict (r.tries ++ tries') k l := by
    rw [inRound_append, inRound_eq_map hpass.round, inRound_eq_nil fun t ht => (hlater t ht).ne', List.append_nil,
      due_eq_self, hpass.whole hstop]
    exact fun t ht => (List.mem_append.mp ht).elim (fun h => (hpass.round t h).ge) fun h => (hlater t h).le
  have hnext : ∀ m, k < m → inRound (r.tries ++ tries') m = inRound tries' m ∧
      due verdict (r.tries ++ tries') m l = due verdict tries' m r.left := fun m hm => by
    rw [inRound_append, inRound_eq_nil fun t ht => by have := hpass.round t ht; omega, List.nil_append, due_append,
      hpass.due_eq hl hstop hm]
    exact ⟨rfl, rfl⟩
  refine ⟨fun t ht => ?_, ?_, fun m hk => ?_, fun m hk hm => ?_⟩
  · rcases List.mem_append.mp ht with ht | ht
    · have := hpass.round t ht
      exact ⟨by omega, hpass.candidates.subset (List.mem_map_of_mem ht)⟩
    · have := h.bounds t ht
      exact ⟨by omega, (hpass.left_sublist hstop).subset this.2⟩
  · refine List.pairwise_append.mpr ⟨hpass.sorted, h.sorted, fun t ht t' ht' => ?_⟩
    rw [hpass.round t ht]
    exact (hlater t' ht').le
  · rcases hk.eq_or_lt with rfl | hlt
    · rw [hfirst]
    · rw [(hnext m hlt).1, (hnext m hlt).2]
      exact h.order m hlt
  · rcases hk.eq_or_lt with rfl | hlt
    · exact hfirst
    · rw [(hnext m hlt).1, (hnext m hlt).2]
      refine h.whole m hlt ?_
      rcases hm with ⟨t, ht, hlt'⟩ | ⟨hnot, hm⟩
      · rcases List.mem_append.mp ht with ht | ht
        · have := hpass.round t ht
          omega
        · exact Or.inl ⟨t, ht, hlt'⟩
      · exact Or.inr ⟨hnot, by omega⟩

theorem rounds_inRounds : ∀ {n k : Nat} {l : List α} {w : W}, l.Nodup →
    InRounds verdict (rounds attempt verdict n k l w).tries k n l (rounds attempt verdict n k l w).stopped
  | 0, k, l, w, _ => ⟨by simp [rounds], by simp [rounds], by simp [rounds, inRound], by
      intro m hk hm
      simp [rounds] at hm
      omega⟩
  | n + 1, k, l, w, hl => by
    have hpass := @pass_passed _ _ _ attempt verdict k l w
    rw [rounds]
    split
    · next hempty =>
      rw [List.isEmpty_iff.mp hempty]
      exact ⟨by simp, by simp, by simp [inRound], by simp [inRound, due]⟩
    · dsimp only
      split
      · next hstop => exact hpass.inRounds hstop
      · next hnot =>
        have hstop := Bool.eq_false_iff.mpr hnot
        exact (rounds_inRounds (hl.sublist (hpass.left_sublist hstop))).behind hpass hl hstop

omit [DecidableEq α] in
theorem Passed.no_stop {r : Result α ω W} (h : Passed verdict round l r) (hstop : r.stopped = false) :
    ∀ t ∈ r.tries, verdict t.outcome ≠ .stop := fun t ht heq =>
  Bool.false_ne_true (hstop.symm.trans (h.stopped_iff.mpr ⟨t, ht, heq⟩))

theorem Passed.tried {r : Result α ω W} (h : Passed verdict k l r) (hl : l.Nodup) (hstop : r.stopped = true) :
    Tried verdict r.tries (n + 1) l r.stopped :=
  ⟨h.stops, h.stopped_iff, h.again hl, fun c => (h.atMost hl c).trans (Nat.succ_le_succ (Nat.zero_le n)),
    fun hnot => absurd (hstop.symm.trans hnot) (by decide)⟩

/-- The candidates that a round left are tried in the rounds behind it. -/
theorem Tried.behind {r : Result α ω W} {stopped : Bool} (hpass : Passed verdict k l r) (hl : l.Nodup)
    (hstop : r.stopped = false) (hmem : ∀ t ∈ tries', t.candidate ∈ r.left) (h : Tried verdict tries' n r.left stopped) :
    Tried verdict (r.tries ++ tries') (n + 1) l stopped := by
  -- Who is tried in a later round was kept in this one.
  have hkept : ∀ t ∈ r.tries, ∀ t' ∈ tries', t.candidate = t'.candidate → verdict t.outcome = .keep := by
    intro t ht t' ht' heq
    obtain ⟨s, hs, hcand, hkeep⟩ := (hpass.mem_left hstop).mp (hmem t' ht')
    rwa [hpass.eq_of_candidate hl ht hs (heq.trans hcand.symm)]
  refine ⟨?_, ?_, ?_, fun c => ?_, fun hend c hc => ?_⟩
  · exact List.pairwise_append.mpr ⟨hpass.stops, h.stops, fun t ht _ _ => hpass.no_stop hstop t ht⟩
  · rw [h.stopped_iff]
    refine exists_congr fun t => and_congr_left fun heq => ?_
    rw [List.mem_append]
    exact (or_iff_right fun ht => hpass.no_stop hstop t ht heq).symm
  · exact List.pairwise_append.mpr ⟨hpass.again hl, h.again, hkept⟩
  · rw [List.filter_append, List.length_append, Nat.add_comm n]
    exact Nat.add_le_add (hpass.atMost hl c) (h.atMost c)
  · rw [← hpass.whole hstop] at hc
    obtain ⟨t, ht, rfl⟩ := List.mem_map.mp hc
    have hsame : ∀ t' ∈ r.tries, t'.candidate = t.candidate → t' = t := fun t' ht' => hpass.eq_of_candidate hl ht' ht
    cases hv : verdict t.outcome with
    | stop => exact absurd hv (hpass.no_stop hstop t ht)
    | drop => exact Or.inl ⟨t, List.mem_append_left _ ht, rfl, hv⟩
    | keep =>
      rcases h.exhausted hend t.candidate ((hpass.mem_left hstop).mpr ⟨t, ht, rfl, hv⟩) with
        ⟨t', ht', hdrop⟩ | ⟨hcount, hall⟩
      · exact Or.inl ⟨t', List.mem_append_right _ ht', hdrop⟩
      · have hone : 0 < (r.tries.filter (·.candidate = t.candidate)).length :=
          List.length_pos_of_mem (List.mem_filter.mpr ⟨ht, by simp⟩)
        have hmost := hpass.atMost hl t.candidate
        refine Or.inr ⟨?_, fun t' ht' heq => ?_⟩
        · rw [List.filter_append, List.length_append, hcount]
          omega
        · rcases List.mem_append.mp ht' with ht' | ht'
          · rwa [hsame t' ht' heq]
          · exact hall t' ht' heq

theorem rounds_tried : ∀ {n k : Nat} {l : List α} {w : W}, l.Nodup →
    Tried verdict (rounds attempt verdict n k l w).tries n l (rounds attempt verdict n k l w).stopped
  | 0, k, l, w, _ => ⟨by simp [rounds], by simp [rounds], by simp [rounds], by simp [rounds], by simp [rounds]⟩
  | n + 1, k, l, w, hl => by
    have hpass := @pass_passed _ _ _ attempt verdict k l w
    rw [rounds]
    split
    · next hempty =>
      rw [List.isEmpty_iff.mp hempty]
      exact ⟨by simp, by simp, by simp, by simp, by simp⟩
    · dsimp only
      split
      · next hstop => exact hpass.tried hl hstop
      · next hnot =>
        have hstop := Bool.eq_false_iff.mpr hnot
        have hleft := hl.sublist (hpass.left_sublist hstop)
        exact (rounds_tried hleft).behind hpass hl hstop fun t ht => ((rounds_inRounds hleft).bounds t ht).2

omit [DecidableEq α] in
/-- What every try counts is counted in the end for all the tries that there were. -/
theorem rounds_count {p : ω → Bool} {f : W → Nat} (h : ∀ a w, f (attempt a w).2 = f w + (p (attempt a w).1).toNat) :
    ∀ {n k : Nat} {l : List α} {w : W}, f (rounds attempt verdict n k l w).world =
      f w + (rounds attempt verdict n k l w).tries.countP (p ·.outcome)
  | 0, _, _, _ => rfl
  | n + 1, k, l, w => by
    have hpass := @pass_count _ _ _ attempt verdict k p f h l w
    rw [rounds]
    split
    · rfl
    · dsimp only
      split
      · exact hpass
      · rw [rounds_count h, hpass, List.countP_append, Nat.add_assoc]

end
end
end Retry

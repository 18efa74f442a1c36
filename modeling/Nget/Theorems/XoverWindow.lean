import Nget.Xover
import Nget.Theorems.NrangeSets

/-! The window of commands that `doxover` keeps ahead of the replies, and the count that it keeps of what is
    still to come. The commands that were written are those of the ranges whose replies were read and of the
    first of the others; what is pending is the replies to these. -/

namespace Nget
open CString

/-! ### The size of a range -/

/-- How many numbers a range has. -/
def rangeSize (e : UInt64 × UInt64) : Nat := e.1.toNat + 1 - e.2.toNat

def rangesSize (l : List (UInt64 × UInt64)) : Nat := (l.map rangeSize).sum

/-- The ranges ascend, with a low end that is not above the high end. -/
def Ascend (l : List (UInt64 × UInt64)) : Prop := (∀ e ∈ l, e.2 ≤ e.1 ∧ e.1 < Nrange.varmax) ∧ l.Pairwise fun a b => a.1 < b.2

theorem Ascend.tail {e : UInt64 × UInt64} {l : List (UInt64 × UInt64)} (h : Ascend (e :: l)) : Ascend l :=
  ⟨fun x hx => h.1 x (List.mem_cons_of_mem e hx), (List.pairwise_cons.mp h.2).2⟩

theorem Nrange.Canonical.ascend {r : Nrange} (hr : r.Canonical) (hmax : ∀ e ∈ r.rlist, e.1 < varmax) :
    Ascend r.rlist.entries := by
  refine ⟨fun e he => ⟨hr.low_le e he, hmax e he⟩, List.Pairwise.imp_of_mem ?_ r.rlist.sorted⟩
  intro a b ha hb hab
  have := hr.gap a ha b hb hab
  exact UInt64.lt_iff_toNat_lt.mpr (by omega)

/-- Ascending ranges that lie above a number have no more numbers than there are above it. -/
theorem rangesSize_le : ∀ {l : List (UInt64 × UInt64)} {n : Nat}, Ascend l → (∀ e ∈ l, n ≤ e.2.toNat) → n < 2 ^ 64 →
    rangesSize l + n < 2 ^ 64
  | [], n, _, _, hn => by simpa [rangesSize] using hn
  | e :: l, n, hl, habove, _ => by
    obtain ⟨hle, hmax⟩ := hl.1 e List.mem_cons_self
    rw [UInt64.le_iff_toNat_le] at hle
    have hmax' : e.1.toNat < 2 ^ 64 - 1 := UInt64.lt_iff_toNat_lt.mp hmax
    have hn := habove e List.mem_cons_self
    have hrest : ∀ x ∈ l, e.1.toNat + 1 ≤ x.2.toNat := fun x hx =>
      UInt64.lt_iff_toNat_lt.mp ((List.pairwise_cons.mp hl.2).1 x hx)
    have ih := rangesSize_le hl.tail hrest (by omega)
    rw [rangesSize, List.map_cons, List.sum_cons, ← rangesSize, rangeSize]
    omega

theorem getTotal_eq {r : Nrange} (h : Ascend r.rlist.entries) : r.getTotal.toNat = rangesSize r.rlist.entries := by
  have hgen : ∀ (l : List (UInt64 × UInt64)) (tot : UInt64), Ascend l → tot.toNat + rangesSize l < 2 ^ 64 →
      (l.foldl (fun tot i => tot + (i.1 - i.2 + 1)) tot).toNat = tot.toNat + rangesSize l := by
    intro l
    induction l with
    | nil => exact fun tot _ _ => rfl
    | cons e l ih =>
      intro tot hl hlt
      obtain ⟨hle, hmax⟩ := hl.1 e List.mem_cons_self
      have hle' := UInt64.le_iff_toNat_le.mp hle
      have hmax' : e.1.toNat < 2 ^ 64 - 1 := UInt64.lt_iff_toNat_lt.mp hmax
      have hsize : (e.1 - e.2 + 1).toNat = rangeSize e := by
        rw [UInt64.toNat_add, UInt64.toNat_sub_of_le _ _ hle, rangeSize, show (1 : UInt64).toNat = 1 from rfl]
        omega
      rw [rangesSize, List.map_cons, List.sum_cons, ← rangesSize] at hlt ⊢
      have hadd : (tot + (e.1 - e.2 + 1)).toNat = tot.toNat + rangeSize e := by
        rw [UInt64.toNat_add, hsize]
        omega
      rw [List.foldl_cons, ih _ hl.tail (by omega), hadd]
      omega
  have hbound := rangesSize_le h (fun e _ => Nat.zero_le _) (by decide)
  rw [Nrange.getTotal, hgen _ 0 h (by simpa using hbound)]
  simp

/-! ### The window -/

namespace Traffic

def isCommand : Traffic → Bool
  | .command _ => true
  | _ => false

def isStatus : Traffic → Bool
  | .status _ => true
  | _ => false

def isTerminator : Traffic → Bool
  | .terminator _ => true
  | _ => false

end Traffic

open Traffic (isCommand isStatus isTerminator)

/-- At no moment was a reply read whose command was not written, and at no moment were more than `limit`
    commands without the end of their reply. -/
def Windowed (limit : Nat) (t : List Traffic) : Prop := ∀ t', t' <+: t →
  t'.countP isStatus ≤ t'.countP isCommand ∧ t'.countP isCommand ≤ t'.countP isTerminator + limit

section
variable {limit : Nat} {t : List Traffic} {e : Traffic}

theorem windowed_nil : Windowed limit [] := fun t' h => by
  rw [List.prefix_nil.mp h]
  exact ⟨le_rfl, Nat.zero_le _⟩

theorem Windowed.append (h : Windowed limit t) (hstatus : (t ++ [e]).countP isStatus ≤ (t ++ [e]).countP isCommand)
    (hcommand : (t ++ [e]).countP isCommand ≤ (t ++ [e]).countP isTerminator + limit) :
      Windowed limit (t ++ [e]) := fun t' ht' => by
  rcases List.prefix_concat_iff.mp ht' with rfl | ht'
  · exact ⟨hstatus, hcommand⟩
  · exact h t' ht'

/-- A line of a reply changes none of the counts. -/
theorem Windowed.line (h : Windowed limit t) (line : Text) : Windowed limit (t ++ [.line line]) := by
  obtain ⟨hstatus, hcommand⟩ := h t (List.prefix_refl t)
  exact h.append (by simpa [List.countP_append, isStatus, isCommand] using hstatus)
    (by simpa [List.countP_append, isTerminator, isCommand] using hcommand)

theorem Windowed.lines (h : Windowed limit t) (lines : List Text) : Windowed limit (t ++ lines.map .line) := by
  induction lines generalizing t with
  | nil => simpa using h
  | cons line lines ih =>
    have := ih (h.line line)
    simpa using this

end

/-! ### The lines of one reply -/

/-- The article numbers of the lines that are accepted as headers. -/
def acceptedNumbers (lines : List Text) : List UInt64 := lines.filterMap fun line =>
  let t := CString.split '\t' (cstr line)
  if 7 < countFields 0 t then some (atoul (t.getD 0 [])) else none

/-- The number lies in the range. -/
def WithinRange (low high n : UInt64) : Prop := low ≤ n ∧ n ≤ high

instance {low high : UInt64} : DecidablePred (WithinRange low high) := fun n => inferInstanceAs (Decidable (low ≤ n ∧ n ≤ high))

/-- The number lies in the range and above all of these that do. -/
def Ahead (low high : UInt64) (before : List UInt64) (n : UInt64) :
    Prop := WithinRange low high n ∧ ∀ m ∈ before, WithinRange low high m → m < n

instance {low high : UInt64} {before : List UInt64} : DecidablePred (Ahead low high before) := fun n =>
  haveI : Decidable (∀ m ∈ before, WithinRange low high m → m < n) := List.decidableBAll _ before
  inferInstanceAs (Decidable (WithinRange low high n ∧ ∀ m ∈ before, WithinRange low high m → m < n))

/-- How many of these numbers lie in the range in strictly ascending order: above all that come before them
    and lie in it. -/
def countAhead (low high : UInt64) : List UInt64 → List UInt64 → Nat
  | _, [] => 0
  | before, n :: ns => (if Ahead low high before n then 1 else 0) + countAhead low high (before ++ [n]) ns

/-- The numbers of the range that are not below `last` are those above all that came in it. -/
def Follows (low high : UInt64) (before : List UInt64) (last : UInt64) : Prop :=
  low ≤ last ∧ ∀ n, WithinRange low high n → ((∀ m ∈ before, WithinRange low high m → m < n) ↔ last ≤ n)

section
variable {low high last an : UInt64} {before : List UInt64}

theorem follows_low : Follows low high [] low := ⟨le_rfl, fun n hn => by simp [hn.1]⟩

theorem Follows.ahead_iff (h : Follows low high before last) :
    Ahead low high before an ↔ ¬(an < low ∨ high < an ∨ an < last) := by
  unfold Ahead
  constructor
  · rintro ⟨hin, hall⟩
    have hlast := (h.2 an hin).mp hall
    simp only [not_or, not_lt]
    exact ⟨hin.1, hin.2, hlast⟩
  · intro hnot
    simp only [not_or, not_lt] at hnot
    have hin : WithinRange low high an := ⟨hnot.1, hnot.2.1⟩
    exact ⟨hin, (h.2 an hin).mpr hnot.2.2⟩

/-- A number that is not ahead changes nothing. -/
theorem Follows.skip (h : Follows low high before last) (han : ¬Ahead low high before an) :
    Follows low high (before ++ [an]) last := by
  refine ⟨h.1, fun n hn => ?_⟩
  have hiff := h.2 n hn
  constructor
  · intro hall
    exact hiff.mp fun m hm => hall m (List.mem_append_left _ hm)
  · intro hlast m hm hin
    rcases List.mem_append.mp hm with hm | hm
    · exact hiff.mpr hlast m hm hin
    · rw [List.mem_singleton.mp hm] at hin ⊢
      by_contra hnot
      exact han ⟨hin, (h.2 an hin).mpr (hlast.trans (not_lt.mp hnot))⟩

/-- After a number that is ahead the next one is expected. -/
theorem Follows.step (h : Follows low high before last) (hmax : high < Nrange.varmax) (han : Ahead low high before an) :
    Follows low high (before ++ [an]) (an + 1) := by
  have hlast : last ≤ an := (h.2 an han.1).mp han.2
  have hnext : (an + 1).toNat = an.toNat + 1 := Nrange.succ_toNat (han.1.2.trans_lt hmax)
  have hsucc : ∀ n, an + 1 ≤ n ↔ an < n := fun n => by
    rw [UInt64.le_iff_toNat_le, UInt64.lt_iff_toNat_lt, hnext]
    exact Nat.succ_le_iff
  refine ⟨?_, fun n hn => ?_⟩
  · have hlow := UInt64.le_iff_toNat_le.mp han.1.1
    rw [UInt64.le_iff_toNat_le, hnext]
    omega
  · rw [hsucc]
    constructor
    · intro hall
      exact hall an (by simp) han.1
    · intro hlt m hm hin
      rcases List.mem_append.mp hm with hm | hm
      · exact (h.2 n hn).mpr (hlast.trans hlt.le) m hm hin
      · rwa [List.mem_singleton.mp hm]

end

section
variable {decodeTextdate : Text → Int64} {serverid : UInt64} {group : Text} {now : Int64}
variable {low high last : UInt64} {streamed : Int} {st : Streaming} {more : List Text}

/-- An exception that the loop over the lines throws, after so many of the lines. -/
def LinesThrow (lines : List Text) (st : Streaming) (stop : XoverStop × Streaming) : Prop :=
  ∃ e read, stop.1 = .comm e ∧ read <+: lines ∧ stop.2.traffic = st.traffic ++ read.map .line ∧ stop.2.commands = st.commands

/-- The loop over the lines has read a whole reply, and `realtotal` is less by what the reply leaves out. -/
structure LinesRead (low high last : UInt64) (lines more : List Text) (counted : Nat) (st : Streaming)
    (last' : UInt64) (st' : Streaming) : Prop where
  commands : st'.commands = st.commands
  pending : st'.pending = more
  traffic : st'.traffic = st.traffic ++ lines.map .line ++ [.terminator ".".toList]
  maxstreaming : st'.session.maxstreaming = st.session.maxstreaming
  last_le : last'.toNat ≤ high.toNat + 1
  le_last : last ≤ last'
  realtotal : st'.realtotal.toNat + (last'.toNat - last.toNat) = st.realtotal.toNat + counted

theorem reduce_ok {n : UInt64} (h : n ≤ st.realtotal) : st.reduce n = .ok { st with realtotal := st.realtotal - n } := by
  have hle : st.realtotal - n ≤ st.realtotal := by
    rw [UInt64.le_iff_toNat_le, UInt64.toNat_sub_of_le _ _ h]
    exact Nat.sub_le _ _
  unfold Streaming.reduce
  dsimp only
  rw [if_pos hle]

/-- What came of the first line, and then of the others. -/
theorem LinesThrow.cons {st₁ : Streaming} {line : Text} {lines : List Text} {stop : XoverStop × Streaming}
    (hcommands : st₁.commands = st.commands) (htraffic : st₁.traffic = st.traffic ++ [.line line])
      (h : LinesThrow lines st₁ stop) :
    LinesThrow (line :: lines) st stop := by
  obtain ⟨e, read, hstop, hread, ht, hc⟩ := h
  refine ⟨e, line :: read, hstop, List.cons_prefix_cons.mpr ⟨rfl, hread⟩, ?_, hc.trans hcommands⟩
  rw [ht, htraffic]
  simp

theorem LinesRead.cons {st₁ st' : Streaming} {line : Text} {lines : List Text} {last₁ last' : UInt64} {k counted : Nat}
    (hcommands : st₁.commands = st.commands) (htraffic : st₁.traffic = st.traffic ++ [.line line])
    (hmaxstreaming : st₁.session.maxstreaming = st.session.maxstreaming) (hle : last ≤ last₁)
    (hreal : st₁.realtotal.toNat + (last₁.toNat - last.toNat) = st.realtotal.toNat + k)
    (h : LinesRead low high last₁ lines more counted st₁ last' st') :
      LinesRead low high last (line :: lines) more (k + counted) st last' st' where
  commands := h.commands.trans hcommands
  pending := h.pending
  traffic := by
    rw [h.traffic, htraffic]
    simp
  maxstreaming := h.maxstreaming.trans hmaxstreaming
  last_le := h.last_le
  le_last := hle.trans h.le_last
  realtotal := by
    have hreal' := h.realtotal
    have hle' := UInt64.le_iff_toNat_le.mp hle
    have hlast := UInt64.le_iff_toNat_le.mp h.le_last
    omega

theorem acceptedNumbers_cons {line : Text} {lines : List Text} : acceptedNumbers (line :: lines) =
    (if 7 < countFields 0 (CString.split '\t' (cstr line)) then [atoul ((CString.split '\t' (cstr line)).getD 0 [])] else []) ++
      acceptedNumbers lines := by
  unfold acceptedNumbers
  rw [List.filterMap_cons]
  by_cases h : 7 < countFields 0 (CString.split '\t' (cstr line))
  · simp [h]
  · simp [h]

theorem xoverLines_spec (hmax : high < Nrange.varmax) :
    ∀ (lines : List Text) (before : List UInt64) (last : UInt64) (st : Streaming),
    (∀ line ∈ lines, isDot line = false) → Follows low high before last → last.toNat ≤ high.toNat + 1 →
      high.toNat + 1 - last.toNat ≤ st.realtotal.toNat →
        (∃ stop, xoverLines decodeTextdate serverid group now low high streamed (lines ++ ".".toList :: more)
          last st = .error stop ∧
          LinesThrow lines st stop) ∨
        ∃ last' st', xoverLines decodeTextdate serverid group now low high streamed (lines ++ ".".toList :: more)
          last st = .ok (last', st') ∧
          LinesRead low high last lines more (countAhead low high before (acceptedNumbers lines)) st last' st'
  | [], before, last, st, _, _, hlast, _ => by
    refine Or.inr ⟨last, _, by rw [List.nil_append, xoverLines, if_pos (by decide)], ?_⟩
    exact ⟨rfl, rfl, by simp, rfl, hlast, le_rfl, by simp [acceptedNumbers, countAhead]⟩
  | line :: lines, before, last, st, hdots, hfollows, hlast, hbudget => by
    have hdot := hdots line List.mem_cons_self
    have hdots' : ∀ l ∈ lines, isDot l = false := fun l hl => hdots l (List.mem_cons_of_mem line hl)
    -- The other lines are read in the state that this one leaves.
    have hrest : ∀ (before₁ : List UInt64) (last₁ : UInt64) (st₁ : Streaming) (k : Nat), Follows low high before₁ last₁ →
        last₁.toNat ≤ high.toNat + 1 → high.toNat + 1 - last₁.toNat ≤ st₁.realtotal.toNat → st₁.commands = st.commands →
        st₁.traffic = st.traffic ++ [.line line] → st₁.session.maxstreaming = st.session.maxstreaming → last ≤ last₁ →
        st₁.realtotal.toNat + (last₁.toNat - last.toNat) = st.realtotal.toNat + k →
          (∃ stop, xoverLines decodeTextdate serverid group now low high streamed (lines ++ ".".toList :: more)
            last₁ st₁ = .error stop ∧
            LinesThrow (line :: lines) st stop) ∨
          ∃ last' st', xoverLines decodeTextdate serverid group now low high streamed (lines ++ ".".toList :: more) last₁ st₁ =
              .ok (last', st') ∧
            LinesRead low high last (line :: lines) more (k + countAhead low high before₁ (acceptedNumbers lines))
              st last' st' := by
      intro before₁ last₁ st₁ k hf hl hb hcommands htraffic hstream hle hreal
      rcases xoverLines_spec hmax lines before₁ last₁ st₁ hdots' hf hl hb with ⟨stop, hstop, hthrow⟩ | ⟨last', st', hok, hread⟩
      · exact Or.inl ⟨stop, hstop, hthrow.cons hcommands htraffic⟩
      · exact Or.inr ⟨last', st', hok, hread.cons hcommands htraffic hstream hle hreal⟩
    rw [List.cons_append, xoverLines, if_neg (by simp [hdot])]
    dsimp only
    rw [acceptedNumbers_cons]
    by_cases hstreaming : (decide (countFields 0 (CString.split '\t' (cstr line)) ≤ 1) && decide (streamed ≠ 0) &&
        decide (atoul ((CString.split '\t' (cstr line)).getD 0 []) = 224)) = true
    · rw [if_pos hstreaming]
      exact Or.inl ⟨_, rfl, streamingError, [line], rfl, by simp, by simp, rfl⟩
    · rw [if_neg hstreaming]
      by_cases hfields : 7 < countFields 0 (CString.split '\t' (cstr line))
      · have han : (overviewHeader decodeTextdate serverid group (CString.split '\t' (cstr line))).articlenum =
            atoul ((CString.split '\t' (cstr line)).getD 0 []) := by simp [overviewHeader]
        rw [if_pos hfields, if_pos hfields, List.singleton_append, countAhead, han]
        generalize atoul ((CString.split '\t' (cstr line)).getD 0 []) = an
        by_cases hweird : an < low ∨ high < an ∨ an < last
        · have hahead : ¬Ahead low high before an := fun h => hfollows.ahead_iff.mp h hweird
          have hcond : (decide (an < low) || decide (high < an) || decide (an < last)) = true := by
            simpa [or_assoc] using hweird
          rw [if_pos hcond, if_neg hahead]
          exact hrest (before ++ [an]) last _ 0 (hfollows.skip hahead) hlast hbudget rfl rfl rfl le_rfl (by simp)
        · have hahead : Ahead low high before an := hfollows.ahead_iff.mpr hweird
          have hcond : ¬(decide (an < low) || decide (high < an) || decide (an < last)) = true := by
            simpa [or_assoc] using hweird
          have hlastan : last ≤ an := (hfollows.2 an hahead.1).mp hahead.2
          have hanhigh := UInt64.le_iff_toNat_le.mp hahead.1.2
          have hlastan' := UInt64.le_iff_toNat_le.mp hlastan
          have hnext : (an + 1).toNat = an.toNat + 1 := Nrange.succ_toNat (hahead.1.2.trans_lt hmax)
          have hsub : (an - last).toNat = an.toNat - last.toNat := UInt64.toNat_sub_of_le _ _ hlastan
          have henough : an - last ≤ st.realtotal := by
            rw [UInt64.le_iff_toNat_le, hsub]
            omega
          have hleft : (st.realtotal - (an - last)).toNat = st.realtotal.toNat - (an.toNat - last.toNat) := by
            rw [UInt64.toNat_sub_of_le _ _ henough, hsub]
          rw [if_neg hcond, if_pos hahead, reduce_ok]
          · refine hrest (before ++ [an]) (an + 1) _ 1 (hfollows.step hmax hahead) (by omega) ?_ rfl rfl rfl ?_ ?_
            · dsimp only
              omega
            · rw [UInt64.le_iff_toNat_le]
              omega
            · dsimp only
              omega
          · exact henough
      · rw [if_neg hfields, if_neg hfields, List.nil_append]
        rw [← Nat.zero_add (countAhead low high before (acceptedNumbers lines))]
        exact hrest before last _ 0 hfollows hlast hbudget rfl rfl rfl le_rfl (by simp)
end

/-! ### The ranges -/

/-- The ranges whose commands were written, in that order. -/
def commandsOf (t : List Traffic) : List (UInt64 × UInt64) := t.filterMap fun
  | .command r => some r
  | _ => none

section
variable {t t' : List Traffic}

theorem commandsOf_append : commandsOf (t ++ t') = commandsOf t ++ commandsOf t' := List.filterMap_append

theorem commandsOf_lines (lines : List Text) : commandsOf (lines.map .line) = [] := by
  induction lines with
  | nil => rfl
  | cons line lines ih => exact ih

theorem countP_lines {p : Traffic → Bool} (hp : ∀ line, p (.line line) = false) (lines : List Text) :
    (lines.map Traffic.line).countP p = 0 := by
  rw [List.countP_eq_zero]
  intro e he
  obtain ⟨line, -, rfl⟩ := List.mem_map.mp he
  simp [hp]

end

section
variable (answer : Nat → UInt64 × UInt64 → XoverAnswer)

/-- The lines of the answers to these commands, the first of which is the `k`th. -/
def repliesFrom : Nat → List (UInt64 × UInt64) → List Text
  | _, [] => []
  | k, r :: rs => (answer k r).sent ++ repliesFrom (k + 1) rs

/-- The lines of these answers that count: accepted, in their own range and in ascending order there. -/
def countedFrom : Nat → List (UInt64 × UInt64) → Nat
  | _, [] => 0
  | k, r :: rs => countAhead r.2 r.1 [] (acceptedNumbers (answer k r).lines) + countedFrom (k + 1) rs

theorem repliesFrom_append : ∀ (k : Nat) (rs rs' : List (UInt64 × UInt64)),
    repliesFrom answer k (rs ++ rs') = repliesFrom answer k rs ++ repliesFrom answer (k + rs.length) rs'
  | _, [], _ => rfl
  | k, r :: rs, rs' => by
    rw [List.cons_append, repliesFrom, repliesFrom, repliesFrom_append (k + 1) rs rs', List.append_assoc, List.length_cons,
      Nat.add_assoc, Nat.add_comm 1]

/-- The replies to `finished` were read, and the commands of `ahead` were written. -/
structure AtRange (limit : Nat) (m : Int32) (finished ahead : List (UInt64 × UInt64)) (st : Streaming) : Prop where
  commands : st.commands = finished ++ ahead
  written : commandsOf st.traffic = finished ++ ahead
  pending : st.pending = repliesFrom answer finished.length ahead
  maxstreaming : st.session.maxstreaming = m
  windowed : Windowed limit st.traffic
  commandCount : st.traffic.countP isCommand = finished.length + ahead.length
  statusCount : st.traffic.countP isStatus = finished.length
  terminatorCount : st.traffic.countP isTerminator = finished.length

variable {answer}
variable {limit : Nat} {m : Int32} {finished ahead : List (UInt64 × UInt64)} {st : Streaming}

theorem AtRange.putXover (h : AtRange answer limit m finished ahead st) (w : UInt64 × UInt64) (hlimit : ahead.length < limit) :
    AtRange answer limit m finished (ahead ++ [w]) (st.putXover answer w) where
  commands := by simp [Streaming.putXover, h.commands]
  written := by
    rw [Streaming.putXover, commandsOf_append, h.written, List.append_assoc]
    rfl
  pending := by
    rw [Streaming.putXover, repliesFrom_append, h.pending, h.commands, List.length_append]
    simp [repliesFrom]
  maxstreaming := h.maxstreaming
  windowed := by
    have hc := h.commandCount
    have hs := h.statusCount
    have ht := h.terminatorCount
    refine h.windowed.append ?_ ?_ <;> simp [List.countP_append, isCommand, isStatus, isTerminator] <;> omega
  commandCount := by
    have hc := h.commandCount
    simp [Streaming.putXover, List.countP_append, isCommand]
    omega
  statusCount := by
    have hs := h.statusCount
    simp [Streaming.putXover, List.countP_append, isStatus]
    omega
  terminatorCount := by
    have ht := h.terminatorCount
    simp [Streaming.putXover, List.countP_append, isTerminator]
    omega

/-- The loop that writes commands stops at the limit, or has written all; it writes the first one if no
    command is ahead. -/
theorem writeXovers_spec (hm : 0 ≤ m) : ∀ (ws ahead : List (UInt64 × UInt64)) (st : Streaming),
    AtRange answer (m.toInt.toNat + 1) m finished ahead st → ahead.length ≤ m.toInt.toNat + 1 →
      ∃ more rest st', ws = more ++ rest ∧ writeXovers answer ws ahead.length st = (rest, ((ahead ++ more).length : Int), st') ∧
        AtRange answer (m.toInt.toNat + 1) m finished (ahead ++ more) st' ∧ (ahead ++ more).length ≤ m.toInt.toNat + 1 ∧
        st'.realtotal = st.realtotal ∧ (ahead ++ ws ≠ [] → ahead ++ more ≠ [])
  | [], ahead, st, h, hlen => ⟨[], [], st, rfl, by simp [writeXovers], by simpa using h, by simpa using hlen, rfl, id⟩
  | w :: ws, ahead, st, h, hlen => by
    have hm' : 0 ≤ m.toInt := Int32.le_iff_toInt_le.mp hm
    rw [writeXovers, h.maxstreaming]
    by_cases hless : ((ahead.length : Nat) : Int) ≤ m.toInt
    · rw [if_pos hless]
      obtain ⟨more, rest, st', hws, hwrite, hat, hlen', hreal, -⟩ :=
        writeXovers_spec hm ws (ahead ++ [w]) (st.putXover answer w)
        (h.putXover w (by omega)) (by rw [List.length_append, List.length_singleton]; omega)
      have hassoc : ahead ++ [w] ++ more = ahead ++ w :: more := by simp
      rw [hassoc] at hwrite hat hlen'
      refine ⟨w :: more, rest, st', by rw [hws, List.cons_append], ?_, hat, hlen', hreal, fun _ => by simp⟩
      rw [← hwrite]
      simp
    · rw [if_neg hless]
      refine ⟨[], w :: ws, st, rfl, by simp, by simpa using h, by simpa using hlen, rfl, fun _ hnil => ?_⟩
      rw [List.append_nil] at hnil
      rw [hnil] at hless
      exact hless hm'

/-- The status line of the next reply is read, or refused. -/
theorem AtRange.getStatus {r : UInt64 × UInt64} (h : AtRange answer limit m finished (r :: ahead) st) :
    (∃ e st', st.getStatus = .error (.comm e, st') ∧ Windowed limit st'.traffic ∧
      commandsOf st'.traffic = commandsOf st.traffic) ∨
    ∃ st', st.getStatus = .ok st' ∧ st'.pending = (answer finished.length r).lines ++
      ".".toList :: repliesFrom answer (finished.length + 1) ahead ∧
      st'.traffic = st.traffic ++ [.status (answer finished.length r).reply] ∧ Windowed limit st'.traffic ∧
      st'.commands = st.commands ∧ st'.session.maxstreaming = m ∧ st'.realtotal = st.realtotal := by
  have hpending : st.pending = (answer finished.length r).reply ::
      ((answer finished.length r).lines ++ ".".toList :: repliesFrom answer (finished.length + 1) ahead) := by
    rw [h.pending, repliesFrom, XoverAnswer.sent]
    simp
  have hwindowed : Windowed limit (st.traffic ++ [.status (answer finished.length r).reply]) := by
    have hc := h.commandCount
    have hs := h.statusCount
    have hw := h.windowed st.traffic (List.prefix_refl _)
    rw [List.length_cons] at hc
    refine h.windowed.append ?_ ?_ <;> simp [List.countP_append, isCommand, isStatus, isTerminator] <;> omega
  have hcommands : commandsOf (st.traffic ++ [.status (answer finished.length r).reply]) = commandsOf st.traffic := by
    rw [commandsOf_append]
    exact List.append_nil _
  unfold Streaming.getStatus
  rw [hpending]
  dsimp only
  cases hreply : chkreply st.session (answer finished.length r).reply with
  | error stop =>
    obtain ⟨e, session⟩ := stop
    exact Or.inl ⟨e, _, rfl, hwindowed, hcommands⟩
  | ok u => exact Or.inr ⟨_, rfl, rfl, rfl, hwindowed, rfl, h.maxstreaming, rfl⟩

variable {decodeTextdate : Text → Int64} {serverid : UInt64} {group : Text} {now : Int64}

/-- What is left of a range behind the number that is expected next. -/
theorem leftOver_toNat {high last : UInt64} (hmax : high < Nrange.varmax) (hlast : last.toNat ≤ high.toNat + 1) :
    (high - last + 1).toNat = high.toNat + 1 - last.toNat := by
  have hmax' : high.toNat < 2 ^ 64 - 1 := UInt64.lt_iff_toNat_lt.mp hmax
  rw [UInt64.toNat_add, UInt64.toNat_sub, show (1 : UInt64).toNat = 1 from rfl]
  omega

/-- What `doxover` does with the reply to one range. -/
def readRange (decodeTextdate : Text → Int64) (serverid : UInt64) (group : Text) (now : Int64)
    (r : UInt64 × UInt64) (streamed : Int)
    (st : Streaming) : StreamingM Streaming := do
  let st ← st.getStatus
  let (last, st) ← xoverLines decodeTextdate serverid group now r.2 r.1 streamed st.pending r.2 st
  st.reduce (r.1 - last + 1)

theorem xoverRanges_cons {r : UInt64 × UInt64} {rs ws ws' : List (UInt64 × UInt64)} {streamed streamed' : Int} {st₁ : Streaming}
    (hwrite : writeXovers answer ws streamed st = (ws', streamed', st₁)) :
    xoverRanges decodeTextdate serverid group now answer (r :: rs) ws streamed st =
      readRange decodeTextdate serverid group now r (streamed' - 1) st₁ >>= fun st =>
        xoverRanges decodeTextdate serverid group now answer rs ws' (streamed' - 1) st := by
  rw [xoverRanges, hwrite, readRange]
  simp only [bind_assoc]

/-- How often a kind of traffic, none of them the lines, occurs once a reply was read. -/
theorem countP_reply {p : Traffic → Bool} (hp : ∀ line, p (.line line) = false) (t : List Traffic)
    (reply : Text) (lines : List Text) :
    (t ++ [Traffic.status reply] ++ lines.map Traffic.line ++ [Traffic.terminator ".".toList]).countP p =
      t.countP p + (if p (.status reply) then 1 else 0) + if p (.terminator ".".toList) then 1 else 0 := by
  simp only [List.countP_append, countP_lines hp, List.countP_singleton]
  omega

theorem AtRange.of_realtotal (h : AtRange answer limit m finished ahead st) (realtotal : UInt64) :
    AtRange answer limit m finished ahead { st with realtotal } :=
  ⟨h.commands, h.written, h.pending, h.maxstreaming, h.windowed, h.commandCount, h.statusCount, h.terminatorCount⟩

/-- The status line and the lines of a reply were read: the range is finished. -/
theorem AtRange.finish {r : UInt64 × UInt64} {st₁ st' : Streaming} {last' : UInt64} {counted : Nat}
    (h : AtRange answer limit m finished (r :: ahead) st)
    (htraffic : st₁.traffic = st.traffic ++ [.status (answer finished.length r).reply]) (hcommands : st₁.commands = st.commands)
    (hstream : st₁.session.maxstreaming = m) (hwindowed : Windowed limit st₁.traffic)
    (hread : LinesRead r.2 r.1 r.2 (answer finished.length r).lines (repliesFrom answer (finished.length + 1) ahead)
      counted st₁ last' st') :
    AtRange answer limit m (finished ++ [r]) ahead st' := by
  have hlines := hwindowed.lines (answer finished.length r).lines
  have hbefore := hlines _ (List.prefix_refl _)
  have hall := hread.traffic
  rw [htraffic] at hall hlines hbefore
  have hcount : st'.traffic.countP isCommand = finished.length + (ahead.length + 1) := by
    rw [hall, countP_reply (fun _ => rfl), h.commandCount]
    rfl
  have hscount : st'.traffic.countP isStatus = finished.length + 1 := by
    rw [hall, countP_reply (fun _ => rfl), h.statusCount]
    rfl
  have htcount : st'.traffic.countP isTerminator = finished.length + 1 := by
    rw [hall, countP_reply (fun _ => rfl), h.terminatorCount]
    rfl
  constructor
  case commands => simpa [hread.commands, hcommands] using h.commands
  case written =>
    rw [hall, commandsOf_append, commandsOf_append, commandsOf_append, commandsOf_lines, h.written]
    simp [commandsOf]
  case pending => simpa using hread.pending
  case maxstreaming => exact hread.maxstreaming.trans hstream
  case windowed =>
    rw [hall] at hcount hscount htcount ⊢
    refine hlines.append ?_ ?_
    · rw [hcount, hscount]
      omega
    · rw [List.countP_append, List.countP_append]
      simp [isTerminator, isCommand] at hbefore ⊢
      omega
  case commandCount =>
    rw [hcount, List.length_append, List.length_singleton]
    omega
  case statusCount => rw [hscount, List.length_append, List.length_singleton]
  case terminatorCount => rw [htcount, List.length_append, List.length_singleton]

/-- One range: its reply is read, and `realtotal` counts what is still to come and what was counted. -/
theorem AtRange.reply {r : UInt64 × UInt64} {counted left : Nat} {streamed : Int}
    (hdots : ∀ line ∈ (answer finished.length r).lines, isDot line = false) (hr : r.2 ≤ r.1 ∧ r.1 < Nrange.varmax)
    (h : AtRange answer limit m finished (r :: ahead) st) (hreal : st.realtotal.toNat = counted + (rangeSize r + left)) :
    (∃ e st', readRange decodeTextdate serverid group now r streamed st = Except.error (.comm e, st') ∧
      Windowed limit st'.traffic ∧
      commandsOf st'.traffic = commandsOf st.traffic) ∨
    ∃ st', readRange decodeTextdate serverid group now r streamed st = Except.ok st' ∧
      AtRange answer limit m (finished ++ [r]) ahead st' ∧
      st'.realtotal.toNat = counted + countAhead r.2 r.1 [] (acceptedNumbers (answer finished.length r).lines) + left := by
  have hlow := UInt64.le_iff_toNat_le.mp hr.1
  rw [rangeSize] at hreal
  simp only [readRange, bind, Except.bind]
  rcases h.getStatus with ⟨e, st', hst', hw, hc⟩ | ⟨st₁, hst₁, hpending, htraffic, hw, hcommands, hstream, hreal₁⟩
  · rw [hst']
    exact Or.inl ⟨e, st', rfl, hw, hc⟩
  · rw [hst₁]
    dsimp only
    rw [hpending]
    have hstatus : commandsOf st₁.traffic = commandsOf st.traffic := by
      rw [htraffic, commandsOf_append]
      exact List.append_nil _
    rcases @xoverLines_spec decodeTextdate serverid group now r.2 r.1 streamed
      (repliesFrom answer (finished.length + 1) ahead) hr.2
        (answer finished.length r).lines [] r.2 st₁ hdots follows_low (by omega) (by rw [hreal₁]; omega) with
      ⟨⟨stop, st'⟩, hstop, e, read, hcomm, -, ht, -⟩ | ⟨last', st', hok, hread⟩
    · rw [hstop]
      obtain rfl : stop = .comm e := hcomm
      refine Or.inl ⟨e, st', rfl, ?_, ?_⟩
      · rw [show st'.traffic = _ from ht]
        exact hw.lines read
      · rw [show st'.traffic = _ from ht, commandsOf_append, commandsOf_lines, List.append_nil, hstatus]
    · rw [hok]
      dsimp only
      have hover := leftOver_toNat hr.2 hread.last_le
      have hreal' := hread.realtotal
      have hle := UInt64.le_iff_toNat_le.mp hread.le_last
      have henough : r.1 - last' + 1 ≤ st'.realtotal := by
        rw [UInt64.le_iff_toNat_le, hover]
        rw [hreal₁] at hreal'
        have := hread.last_le
        omega
      rw [reduce_ok henough]
      refine Or.inr ⟨_, rfl, ?_, ?_⟩
      · exact (h.finish htraffic hcommands hstream hw hread).of_realtotal _
      · show (st'.realtotal - (r.1 - last' + 1)).toNat = _
        rw [UInt64.toNat_sub_of_le _ _ henough, hover]
        rw [hreal₁] at hreal'
        have := hread.last_le
        omega

/-- A run stops with an exception, or comes to the end of the ranges; the commands are written and the replies
    are read within the window all the way. -/
theorem xoverRanges_spec (hm : 0 ≤ m) (hdots : ∀ k r, ∀ line ∈ (answer k r).lines, isDot line = false) :
    ∀ (rs ws ahead finished : List (UInt64 × UInt64)) (st : Streaming) (counted : Nat), rs = ahead ++ ws → Ascend rs →
      AtRange answer (m.toInt.toNat + 1) m finished ahead st → ahead.length ≤ m.toInt.toNat + 1 →
      st.realtotal.toNat = counted + rangesSize rs →
        (∃ e st', xoverRanges decodeTextdate serverid group now answer rs ws ahead.length st = .error (.comm e, st') ∧
          Windowed (m.toInt.toNat + 1) st'.traffic ∧ commandsOf st'.traffic <+: finished ++ rs) ∨
        ∃ st', xoverRanges decodeTextdate serverid group now answer rs ws ahead.length st = .ok st' ∧
          AtRange answer (m.toInt.toNat + 1) m (finished ++ rs) [] st' ∧
          st'.realtotal.toNat = counted + countedFrom answer finished.length rs
  | [], ws, ahead, finished, st, counted, hsplit, _, hat, _, hreal => by
    obtain ⟨rfl, rfl⟩ := List.append_eq_nil_iff.mp hsplit.symm
    exact Or.inr ⟨st, rfl, by rwa [List.append_nil], hreal⟩
  | r :: rs, ws, ahead, finished, st, counted, hsplit, hascend, hat, hlen, hreal => by
    obtain ⟨more, rest, st₁, rfl, hwrite, hat₁, hlen₁, hreal₁, hne⟩ := writeXovers_spec hm ws ahead st hat hlen
    obtain ⟨r', ahead₁, hahead⟩ := List.exists_cons_of_ne_nil (hne (by simp [← hsplit]))
    obtain ⟨rfl, hrs⟩ : r' = r ∧ ahead₁ ++ rest = rs := by
      rw [← List.append_assoc, hahead, List.cons_append] at hsplit
      exact ⟨(List.cons.inj hsplit).1.symm, (List.cons.inj hsplit).2.symm⟩
    rw [hahead] at hat₁ hlen₁ hwrite
    rw [List.length_cons] at hlen₁
    have hsize : st₁.realtotal.toNat = counted + (rangeSize r' + rangesSize rs) := by
      rw [hreal₁, hreal, rangesSize, rangesSize, List.map_cons, List.sum_cons]
    have hstreamed : (((r' :: ahead₁).length : Nat) : Int) - 1 = (ahead₁.length : Int) := by simp
    have hcommands : commandsOf st₁.traffic <+: finished ++ r' :: rs := by
      rw [hat₁.written, ← hrs, ← List.cons_append, ← List.append_assoc]
      exact List.prefix_append _ _
    rw [xoverRanges_cons hwrite, hstreamed]
    simp only [bind, Except.bind]
    rcases @AtRange.reply answer (m.toInt.toNat + 1)
      m finished ahead₁ st₁ decodeTextdate serverid group now r' counted (rangesSize rs)
        ahead₁.length (hdots _ _) (hascend.1 r' List.mem_cons_self) hat₁ hsize with
      ⟨e, st', hst', hw, hc⟩ | ⟨st₂, hst₂, hat₂, hreal₂⟩
    · rw [hst']
      exact Or.inl ⟨e, st', rfl, hw, hc ▸ hcommands⟩
    · rw [hst₂]
      dsimp only
      have hfinish : finished ++ [r'] ++ rs = finished ++ r' :: rs := by simp
      rcases xoverRanges_spec hm hdots rs rest ahead₁ (finished ++ [r']) st₂ _ hrs.symm hascend.tail hat₂ (by omega) hreal₂ with
        ⟨e, st', hst', hw, hc⟩ | ⟨st', hst', hat', hreal'⟩
      · exact Or.inl ⟨e, st', hst', hw, hfinish ▸ hc⟩
      · refine Or.inr ⟨st', hst', hfinish ▸ hat', ?_⟩
        rw [hreal', countedFrom, List.length_append, List.length_singleton]
        omega

/-- Nothing was written and nothing was read. -/
theorem AtRange.initial (session : Session) (realtotal : UInt64) (hstream : session.maxstreaming = m) :
    AtRange answer (m.toInt.toNat + 1) m [] [] { session, realtotal } :=
  ⟨rfl, rfl, rfl, hstream, windowed_nil, rfl, rfl, rfl⟩

/-- Whatever the replies are, as long as no line of them begins with a dot, the commands are written in
    ascending order within the window, no assertion fails, and a run that returns has read all the replies
    and has counted the lines that lie in their own range in ascending order. -/
theorem xover_pipelined {r : Nrange} {session : Session} (hr : r.Canonical) (hne : r.empty = false)
    (hmax : ∀ e ∈ r.rlist, e.1 < Nrange.varmax) (hm : 0 ≤ session.maxstreaming)
    (hdots : ∀ k r, ∀ line ∈ (answer k r).lines, isDot line = false) :
    (∃ e st', doxoverStreaming decodeTextdate serverid group now answer r session = .error (.comm e, st') ∧
      Windowed (session.maxstreaming.toInt.toNat + 1) st'.traffic ∧ commandsOf st'.traffic <+: r.rlist.entries) ∨
    ∃ st', doxoverStreaming decodeTextdate serverid group now answer r session = .ok st' ∧
      Windowed (session.maxstreaming.toInt.toNat + 1) st'.traffic ∧
      commandsOf st'.traffic = r.rlist.entries ∧ (commandsOf st'.traffic).Pairwise (fun a b => a.1 < b.2) ∧
      st'.pending = [] ∧ st'.traffic.countP isTerminator = r.rlist.entries.length ∧
      st'.realtotal.toNat = countedFrom answer 0 r.rlist.entries := by
  have hascend := hr.ascend hmax
  have hreal := getTotal_eq hascend
  unfold doxoverStreaming
  rw [if_neg (by simp [hne])]
  rcases @xoverRanges_spec answer session.maxstreaming decodeTextdate serverid group now hm hdots r.rlist.entries
    r.rlist.entries
      [] [] { session, realtotal := r.getTotal } 0 rfl hascend (AtRange.initial session r.getTotal rfl) (Nat.zero_le _)
      (by rw [hreal, Nat.zero_add]) with ⟨e, st', hst', hw, hc⟩ | ⟨st', hst', hat, hcounted⟩
  · exact Or.inl ⟨e, st', hst', hw, hc⟩
  · have hwritten : commandsOf st'.traffic = r.rlist.entries := by
      rw [hat.written, List.append_nil]
      rfl
    refine Or.inr ⟨st', hst', hat.windowed, hwritten, hwritten ▸ hascend.2, hat.pending, hat.terminatorCount, ?_⟩
    rw [hcounted, Nat.zero_add]
    rfl

/-- A server that sends the headers of the articles 1, 3 and 5 whatever it is asked for. -/
def sameHeaders (_ : Nat) (_ : UInt64 × UInt64) : XoverAnswer where
  reply := "224 data follows".toList
  lines := ["1\ts\ta\t\t<1>\t\t10\t1".toList, "3\ts\ta\t\t<3>\t\t10\t1".toList, "5\ts\ta\t\t<5>\t\t10\t1".toList]

theorem xover_pipelined_sample :
    (∃ e st', doxoverStreaming (fun _ => 0) 1 [] 0 sameHeaders ((Nrange.insert ∅ 1 3).insert 5 5) { cache := ∅ } =
      .error (.comm e, st') ∧
      Windowed 65 st'.traffic ∧ commandsOf st'.traffic <+: [(3, 1), (5, 5)]) ∨
    ∃ st', doxoverStreaming (fun _ => 0) 1 [] 0 sameHeaders ((Nrange.insert ∅ 1 3).insert 5 5) { cache := ∅ } = .ok st' ∧
      Windowed 65 st'.traffic ∧ commandsOf st'.traffic = [(3, 1), (5, 5)] ∧
      (commandsOf st'.traffic).Pairwise (fun a b => a.1 < b.2) ∧ st'.pending = [] ∧ st'.traffic.countP isTerminator = 2 ∧
      st'.realtotal.toNat = 3 := by
  have hfirst := (Nrange.insert_spec Nrange.canonical_empty (show (1 : UInt64) ≤ 3 by decide)).1
  have hr := (Nrange.insert_spec hfirst (show (5 : UInt64) ≤ 5 by decide)).1
  have hdots : ∀ (k : Nat) (r : UInt64 × UInt64), ∀ line ∈ (sameHeaders k r).lines, isDot line = false := by
    intro k r
    show ∀ line ∈ (sameHeaders 0 (0, 0)).lines, isDot line = false
    decide
  have hcounted : countedFrom sameHeaders 0 [(3, 1), (5, 5)] = 3 := by decide +kernel
  have hentries : ((Nrange.insert ∅ 1 3).insert 5 5).rlist.entries = [(3, 1), (5, 5)] := by decide +kernel
  have hlimit : (64 : Int32).toInt.toNat + 1 = 65 := by decide
  have hrun := @xover_pipelined sameHeaders (fun _ => 0) 1 [] 0 _ { cache := ∅ } hr (by decide +kernel) (by decide +kernel)
    (by decide) hdots
  rw [hentries, hcounted, hlimit] at hrun
  exact hrun

/-- A line of a reply that begins with a dot ends the reply, and what follows of it is not read. -/
theorem stuffed_line_ends_reply :
    (doxoverStreaming (fun _ => 0) 1 [] 0 (fun _ _ => ⟨"224 data follows".toList, ["..x".toList]⟩) (Nrange.insertOne ∅ 1)
      { cache := ∅ }).toOption.map (·.pending) = some [".".toList] := by decide +kernel

end
end Nget

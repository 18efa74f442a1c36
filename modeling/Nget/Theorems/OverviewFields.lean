import Nget.Theorems.Doxover

/-! Which overview lines `doxover` adds to the cache. A field that is read as a number passes the check when all of it
    is digits and white space, but also when its first character already is neither, so a line with such a field and no
    other fault is added although it should be rejected. -/

namespace Nget
open CString
variable {decodeTextdate : Text → Int64} {serverid : UInt64} {group : Text} {now : Int64}
variable {low high last : UInt64} {streamed : Int} {line field : Text} {st : Session} {i k : Nat}

def overviewFields (line : Text) : List Text := CString.split '\t' (cstr line)

/-- The field of an overview line, empty when there are fewer fields. -/
def overviewField (line : Text) (i : Nat) : Text := (overviewFields line).getD i []

def numericChar (c : Char) : Bool := c.isDigit || isspace c

def Numeric (field : Text) : Prop := ∀ c ∈ field, numericChar c = true

instance : DecidablePred Numeric := fun field => List.decidableBAll (fun c => numericChar c = true) field

/-- The first character of the field is neither a digit nor white space. -/
def StartsOdd (field : Text) : Prop := ∃ c ∈ field.head?, numericChar c = false

instance : DecidablePred StartsOdd := fun field =>
  decidable_of_iff ((field.head?.map numericChar) = some false) (by simp [StartsOdd])

/-- The fields that are read as numbers: the article number, the bytes and the lines. -/
def numberFields : List Nat := [0, 6, 7]

/-- The line has the fields that it must have, and its numbers are numeric. -/
def WellFormedLine (line : Text) : Prop :=
  8 ≤ (overviewFields line).length ∧ ∀ i ∈ numberFields, Numeric (overviewField line i)

/-- The check of the field, which is as it should be but for fields that start with an odd character. -/
theorem nonNumeric_iff (hi : i ∈ numberFields) : nonNumeric i field = false ↔ Numeric field ∨ StartsOdd field := by
  have hnum : (i = 0 || i = 6 || i = 7) = true := by
    simpa [numberFields, or_assoc] using hi
  cases field with
  | nil => simp [nonNumeric, Numeric]
  | cons c cs =>
    have hodd : StartsOdd (c :: cs) ↔ numericChar c = false := by simp [StartsOdd]
    have hall : Numeric (c :: cs) ↔ (c :: cs).dropWhile numericChar = [] := List.dropWhile_eq_nil_iff.symm
    rw [hodd, hall]
    show ((i = 0 || i = 6 || i = 7)
      && !((c :: cs).dropWhile numericChar).isEmpty && !((c :: cs).takeWhile numericChar).isEmpty) = false ↔ _
    rw [hnum, Bool.true_and]
    cases hc : numericChar c with
    | false => simp [hc]
    | true => simp [hc]

/-- The loop over the fields gets past field `k` just when there is one and no field up to it fails the check. -/
theorem lt_countFields_iff (hk : k < 10) : ∀ (ts : List Text) (i : Nat), i ≤ k →
    (k < countFields i ts ↔ k < i + ts.length ∧ ∀ j, i + j ≤ k → nonNumeric (i + j) (ts.getD j []) = false)
  | [], i, hi => by
    simp only [countFields, List.length_nil, Nat.add_zero]
    exact ⟨fun h => absurd h (not_lt.mpr hi), fun h => absurd h.1 (not_lt.mpr hi)⟩
  | t :: ts, i, hi => by
    unfold countFields
    rw [if_pos (hi.trans_lt hk)]
    split
    · next hodd =>
      refine ⟨fun h => absurd h (not_lt.mpr hi), fun h => ?_⟩
      have := h.2 0 hi
      simp only [Nat.add_zero, List.getD_cons_zero] at this
      exact absurd (hodd.symm.trans this) (by simp)
    · next heven =>
      have heven := Bool.eq_false_iff.mpr heven
      rcases hi.lt_or_eq with hlt | rfl
      · rw [lt_countFields_iff hk ts (i + 1) hlt, List.length_cons]
        refine and_congr (by omega) ⟨fun h j hj => ?_, fun h j hj => ?_⟩
        · cases j with
          | zero => exact heven
          | succ j =>
            have := h j (by omega)
            rwa [Nat.add_right_comm] at this
        · have := h (j + 1) (by omega)
          rwa [← Nat.add_assoc, Nat.add_right_comm] at this
      · have hgt : i < countFields (i + 1) ts := le_countFields ts (i + 1)
        refine iff_of_true hgt ⟨by simp, fun j hj => ?_⟩
        obtain rfl : j = 0 := by omega
        exact heven

theorem accepts_iff : 7 < countFields 0 (overviewFields line) ↔
    8 ≤ (overviewFields line).length ∧
      ∀ i ∈ numberFields, Numeric (overviewField line i) ∨ StartsOdd (overviewField line i) := by
  rw [lt_countFields_iff (by decide) _ 0 (Nat.zero_le 7), Nat.zero_add]
  refine and_congr Iff.rfl ⟨fun h i hi => ?_, fun h j hj => ?_⟩
  · have hle : i ≤ 7 := by
      simp only [numberFields, List.mem_cons, List.not_mem_nil, or_false] at hi
      omega
    have := h i (by rwa [Nat.zero_add])
    rw [Nat.zero_add] at this
    exact (nonNumeric_iff hi).mp this
  · rw [Nat.zero_add]
    by_cases hmem : j ∈ numberFields
    · exact (nonNumeric_iff hmem).mpr (h j hmem)
    · simp only [numberFields, List.mem_cons, List.not_mem_nil, or_false, not_or] at hmem
      exact nonNumeric_of_text hmem

/-! ### The line in the loop -/

section
variable (decodeTextdate : Text → Int64) (serverid : UInt64) (group : Text) (now : Int64) (low high : UInt64) (streamed : Int)

/-- The loop takes `line` and goes on with the lines after it from the number `last'` and the session `st'`. -/
def TakesLine (line : Text) (last : UInt64) (st : Session) (last' : UInt64) (st' : Session) : Prop :=
  ∀ lines, doxoverLines decodeTextdate serverid group now low high streamed (line :: lines) last st =
    doxoverLines decodeTextdate serverid group now low high streamed lines last' st'

def addLine (line : Text) (st : Session) : NntpCache :=
  (st.cache.additem (overviewHeader decodeTextdate serverid group (overviewFields line)) now).1

/-- A line that is well formed is added to the cache; another one, such as one whose article number starts with an odd
    character, is rejected with a warning. -/
def LineRight (line : Text) (last : UInt64) (st : Session) : Prop :=
  ∃ last' st', TakesLine decodeTextdate serverid group now low high streamed line last st last' st' ∧
    (WellFormedLine line → st'.cache = addLine decodeTextdate serverid group now line st) ∧
    (¬WellFormedLine line → last' = last ∧ st' = { st with xoverWarn := st.xoverWarn + 1 }) ∧
    (StartsOdd (overviewField line 0) → st'.cache = st.cache)

end

/-- The line ends a range too soon: it is the status line of the next one. -/
def EndsEarly (streamed : Int) (line : Text) : Prop :=
  countFields 0 (overviewFields line) ≤ 1 ∧ streamed ≠ 0 ∧ atoul (overviewField line 0) = 224

/-- Adding a header changes the cache: it raises a server's count of articles. -/
theorem addLine_ne : addLine decodeTextdate serverid group now line st ≠ st.cache := by
  intro heq
  have hid : (overviewHeader decodeTextdate serverid group (overviewFields line)).serverid = serverid := by
    simp [overviewHeader]
  have hnum := congrArg (fun c : NntpCache => (c.servinfo serverid).num) heq
  simp only [addLine, NntpCache.servinfo_additem, hid, if_true, NntpServerInfo.addArticle] at hnum
  exact absurd hnum (by simp)

/-- What the loop makes of a line: one that passes its checks is added, any other is rejected. -/
theorem takesLine (hdot : isDot line = false) (hearly : ¬EndsEarly streamed line) :
    ∃ last' st', TakesLine decodeTextdate serverid group now low high streamed line last st last' st' ∧
      if 7 < countFields 0 (overviewFields line) then st'.cache = addLine decodeTextdate serverid group now line st
      else last' = last ∧ st' = { st with xoverWarn := st.xoverWarn + 1 } := by
  have hearly' : ¬(countFields 0 (overviewFields line) ≤ 1 && streamed ≠ 0 && atoul (overviewField line 0) = 224) = true := by
    simpa [EndsEarly, and_assoc] using hearly
  have hline : ∀ lines, doxoverLines decodeTextdate serverid group now low high streamed (line :: lines) last st =
      if 7 < countFields 0 (overviewFields line) then
        let an := (overviewHeader decodeTextdate serverid group (overviewFields line)).articlenum
        let st := { st with cache := addLine decodeTextdate serverid group now line st }
        if an < low || high < an || an < last then
          doxoverLines decodeTextdate serverid group now low high streamed lines last { st with xoverWarn := st.xoverWarn + 1 }
        else doxoverLines decodeTextdate serverid group now low high streamed lines (an + 1) st
      else doxoverLines decodeTextdate serverid group now low high streamed lines last
        { st with xoverWarn := st.xoverWarn + 1 } := fun lines => by
    rw [doxoverLines, if_neg (by simp [hdot])]
    exact if_neg hearly'
  by_cases haccept : 7 < countFields 0 (overviewFields line)
  · simp only [if_pos haccept] at hline ⊢
    generalize (overviewHeader decodeTextdate serverid group (overviewFields line)).articlenum = an at hline
    by_cases hweird : (an < low || high < an || an < last) = true
    · simp only [if_pos hweird] at hline
      exact ⟨_, _, hline, rfl⟩
    · simp only [if_neg hweird] at hline
      exact ⟨_, _, hline, rfl⟩
  · simp only [if_neg haccept] at hline ⊢
    exact ⟨_, _, hline, rfl, rfl⟩

theorem TakesLine.unique {last₁ last₂ : UInt64} {st₁ st₂ : Session}
    (h₁ : TakesLine decodeTextdate serverid group now low high streamed line last st last₁ st₁)
    (h₂ : TakesLine decodeTextdate serverid group now low high streamed line last st last₂ st₂) : st₁ = st₂ := by
  have h := (h₁ [".".toList]).symm.trans (h₂ [".".toList])
  have hdot : isDot ".".toList = true := by decide
  simp only [doxoverLines, hdot, if_true] at h
  exact Except.ok.inj h

theorem not_numeric_of_startsOdd (h : StartsOdd field) : ¬Numeric field := by
  obtain ⟨c, hc, hodd⟩ := h
  intro hall
  rw [hall c (List.mem_of_mem_head? hc)] at hodd
  exact absurd hodd (by simp)

/-- The lines that are added although they are not well formed: at least one of the numbers starts with an odd character,
    and those that do not are numeric. -/
def SlipsThrough (line : Text) : Prop :=
  8 ≤ (overviewFields line).length ∧ (∃ i ∈ numberFields, StartsOdd (overviewField line i)) ∧
    ∀ i ∈ numberFields, Numeric (overviewField line i) ∨ StartsOdd (overviewField line i)

theorem slipsThrough_iff : SlipsThrough line ↔ 7 < countFields 0 (overviewFields line) ∧ ¬WellFormedLine line := by
  rw [accepts_iff]
  constructor
  · rintro ⟨hlen, ⟨i, hi, hodd⟩, hall⟩
    exact ⟨⟨hlen, hall⟩, fun hwf => not_numeric_of_startsOdd hodd (hwf.2 i hi)⟩
  · rintro ⟨⟨hlen, hall⟩, hwf⟩
    refine ⟨hlen, ?_, hall⟩
    by_contra hnone
    exact hwf ⟨hlen, fun i hi => (hall i hi).resolve_right fun hodd => hnone ⟨i, hi, hodd⟩⟩

theorem SlipsThrough.not_lineRight (hslip : SlipsThrough line) (hdot : isDot line = false) (hearly : ¬EndsEarly streamed line) :
    ¬LineRight decodeTextdate serverid group now low high streamed line last st := by
  rintro ⟨last', st', htakes, -, hreject, -⟩
  obtain ⟨haccept, hwf⟩ := slipsThrough_iff.mp hslip
  obtain ⟨last₀, st₀, htakes₀, hmade⟩ := @takesLine decodeTextdate serverid group now low high last streamed line st hdot hearly
  rw [if_pos haccept, htakes₀.unique htakes, (hreject hwf).2] at hmade
  exact addLine_ne hmade.symm

/-- A line is treated rightly just when it is not one that slips through the check. -/
theorem doxover_line_iff (hdot : isDot line = false) (hearly : ¬EndsEarly streamed line) :
    LineRight decodeTextdate serverid group now low high streamed line last st ↔ ¬SlipsThrough line := by
  constructor
  · exact fun hright hslip => hslip.not_lineRight hdot hearly hright
  · intro hslip
    rw [slipsThrough_iff] at hslip
    obtain ⟨last₀, st₀, htakes₀, hmade⟩ :=
      @takesLine decodeTextdate serverid group now low high last streamed line st hdot hearly
    refine ⟨last₀, st₀, htakes₀, fun hwf => ?_, fun hwf => ?_, fun hodd => ?_⟩
    · rwa [if_pos (accepts_iff.mpr ⟨hwf.1, fun i hi => Or.inl (hwf.2 i hi)⟩)] at hmade
    · rwa [if_neg fun haccept => hslip ⟨haccept, hwf⟩] at hmade
    · have hwf : ¬WellFormedLine line := fun hwf => not_numeric_of_startsOdd hodd (hwf.2 0 (by decide))
      rw [if_neg fun haccept => hslip ⟨haccept, hwf⟩] at hmade
      rw [hmade.2]

/-- A line with letters for an article number is added, under the number 0. -/
theorem doxover_line_wrong :
    let line := "abc\tsubject\tauthor\tdate\t<id>\t\t100\t10".toList
    let st : Session := { cache := (∅ : NntpCache) }
    isDot line = false ∧ ¬EndsEarly 0 line ∧ StartsOdd (overviewField line 0) ∧
      ¬LineRight (fun _ => 0) 1 [] 0 1 9 0 line 1 st ∧ atoul (overviewField line 0) = 0 := by
  have hearly : ∀ line, ¬EndsEarly 0 line := fun line h => h.2.1 rfl
  refine ⟨by decide, hearly _, by decide, SlipsThrough.not_lineRight ⟨by decide, ?_, by decide⟩ (by decide) (hearly _),
    by decide⟩
  exact ⟨0, by decide, by decide⟩

/-- A line whose article number is no number but starts with a digit. -/
theorem doxover_line_rejected :
    let line := "1a\tsubject\tauthor\tdate\t<id>\t\t100\t10".toList
    let st : Session := { cache := (∅ : NntpCache) }
    LineRight (fun _ => 0) 1 [] 0 1 9 0 line 1 st ↔ ¬SlipsThrough line :=
  doxover_line_iff (by decide) fun h => h.2.1 rfl

end Nget

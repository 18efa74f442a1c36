import Nget.Header
import Mathlib

/-! The part number of a subject. `set` looks for the last slash that has digits and brackets around it, and
    `parsepnum` for the opening bracket from there down, but not at the first character: what stands before the
    bracket has to be something. Where it is, all parts of a post have one key. -/

namespace Nget
open CString

/-- The brackets around a part number. -/
inductive Brackets
  | round
  | square

namespace Brackets

def opening : Brackets → Char
  | round => '('
  | square => '['

def closing : Brackets → Char
  | round => ')'
  | square => ']'

variable {b : Brackets}

theorem closing_spec : (b.closing = ')' ∨ b.closing = ']') ∧ (if b.closing = ')' then '(' else '[') = b.opening := by
  cases b <;> decide

theorem opening_spec : b.opening ≠ '/' ∧ b.opening.isDigit = false := by
  cases b <;> decide

theorem closing_isDigit : b.closing.isDigit = false := by
  cases b <;> rfl

theorem closing_ne_slash : b.closing ≠ '/' := by
  cases b <;> decide

end Brackets

/-- The subject of a part, with this as its number. -/
def partSubject (before after : Text) (b : Brackets) (k : Text) (n : Nat) : Text :=
  before ++ b.opening :: k ++ '/' :: (Nat.toDigits 10 n ++ b.closing :: after)

/-- What `set` should make of the subject of part `k` of `n`. -/
def NntpHeader.Numbered (h : NntpHeader) (before after : Text) (b : Brackets) (k n : Nat) : Prop :=
  h.req.toInt = n ∧ h.partnum.toInt = k ∧ h.partoff.toInt = before.length + 1 ∧ h.subject = partSubject before after b ['*'] n

/-! ### The loops -/

section
variable {str before after pre tail : Text} {c : Char} {b : Brackets} {k n : Nat} {req : Int32}

/-- The loop of `parsepnum` over characters that are not the bracket. -/
theorem findBefore_skip {low : Nat} : ∀ {high : Nat}, low ≤ high → (∀ i, low < i → i ≤ high → str[i]? ≠ some c) →
    findBefore str c high = findBefore str c low
  | 0, hle, _ => by rw [Nat.le_zero.mp hle]
  | high + 1, hle, h => by
    rcases Nat.lt_or_ge low (high + 1) with hlt | hge
    · rw [findBefore, if_neg (h (high + 1) hlt le_rfl)]
      exact findBefore_skip (Nat.lt_succ_iff.mp hlt) fun i hi hih => h i hi (Nat.le_succ_of_le hih)
    · rw [le_antisymm hge hle]

/-- The loop of `set` over characters that are not slashes. -/
theorem findPnum_skip {low : Nat} : ∀ {high : Nat}, low ≤ high → (∀ i, low < i → i ≤ high → str[i]? ≠ some '/') →
    findPnum str high req = findPnum str low req
  | 0, hle, _ => by rw [Nat.le_zero.mp hle]
  | high + 1, hle, h => by
    rcases Nat.lt_or_ge low (high + 1) with hlt | hge
    · rw [findPnum, if_neg (h (high + 1) hlt le_rfl)]
      exact findPnum_skip (Nat.lt_succ_iff.mp hlt) fun i hi hih => h i hi (Nat.le_succ_of_le hih)
    · rw [le_antisymm hge hle]

/-- A character behind a text stands in what follows it. -/
theorem getElem?_ne_of_not_mem {i : Nat} (hi : pre.length < i) (hc : c ∉ tail) {d : Char} :
    (pre ++ d :: tail)[i]? ≠ some c := by
  rw [List.getElem?_append_right hi.le]
  obtain ⟨j, hj⟩ := Nat.exists_eq_add_of_lt hi
  rw [show i - pre.length = j + 1 by omega, List.getElem?_cons_succ]
  exact fun h => hc (List.mem_of_getElem? h)

theorem getElem?_ne_of_append {i : Nat} (hi : i < pre.length) (hc : (pre ++ tail)[i]? = some c) : c ∈ pre := by
  rw [List.getElem?_append_left hi] at hc
  exact List.mem_of_getElem? hc

/-! ### Numbers -/

/-- A printed number that a character other than a digit follows. -/
theorem strtol_toDigits (hn : n < 2 ^ 31) (hc : c.isDigit = false) :
    strtol (Nat.toDigits 10 n ++ c :: tail) = ((n : Int), c :: tail) := by
  unfold strtol
  rw [scan_toDigits (by simpa using hc)]
  refine Prod.ext ?_ rfl
  simp only [Bool.false_eq_true, if_false]
  omega

theorem numberUpTo_toDigits (hn : n < 2 ^ 31) (hc : c.isDigit = false) {p : Nat}
    (hp : str.drop p = Nat.toDigits 10 n ++ c :: tail) :
    numberUpTo str p c = some (Int32.ofInt n) := by
  have hpos : 0 < (Nat.toDigits 10 n).length := List.length_pos_iff.mpr Nat.toDigits_ne_nil
  unfold numberUpTo atoi
  dsimp only
  rw [hp, strtol_toDigits hn hc]
  dsimp only
  rw [if_pos]
  simp only [List.head?_cons, List.length_append, decide_true, Bool.true_and, decide_eq_true_eq]
  omega

theorem toInt_ofInt_nat (hn : n < 2 ^ 31) : (Int32.ofInt (n : Int)).toInt = n :=
  Int32.toInt_ofInt_of_le (by omega) (by omega)

theorem not_mem_toDigits (hc : c.isDigit = false) : c ∉ Nat.toDigits 10 n := fun h => by
  rw [isDigit_of_mem_toDigits h] at hc
  cases hc

/-! ### The subject of a part -/

theorem partSubject_slash :
    (partSubject before after b (Nat.toDigits 10 k) n)[(before ++ b.opening :: Nat.toDigits 10 k).length]? = some '/' := by
  unfold partSubject
  rw [List.getElem?_append_right le_rfl, Nat.sub_self, List.getElem?_cons_zero]

theorem drop_slash {K : Text} : (partSubject before after b K n).drop ((before ++ b.opening :: K).length + 1) =
    Nat.toDigits 10 n ++ b.closing :: after := by
  unfold partSubject
  rw [List.drop_append, List.drop_eq_nil_of_le (Nat.le_succ _), Nat.add_sub_cancel_left]
  rfl

theorem drop_opening {K : Text} : (partSubject before after b K n).drop (before.length + 1) =
    K ++ '/' :: (Nat.toDigits 10 n ++ b.closing :: after) := by
  unfold partSubject
  rw [List.append_assoc, List.drop_append, List.drop_eq_nil_of_le (Nat.le_succ _), Nat.add_sub_cancel_left]
  rfl

/-- Between the opening bracket and the slash there are digits only. -/
theorem ne_opening {i : Nat} (hlow : before.length < i) (hhigh : i ≤ (before ++ b.opening :: Nat.toDigits 10 k).length) :
    (partSubject before after b (Nat.toDigits 10 k) n)[i]? ≠ some b.opening := by
  rcases Nat.lt_or_eq_of_le hhigh with hlt | rfl
  · have hnot : b.opening ∉ Nat.toDigits 10 k := not_mem_toDigits Brackets.opening_spec.2
    unfold partSubject
    rw [List.getElem?_append_left hlt]
    exact getElem?_ne_of_not_mem hlow hnot
  · rw [partSubject_slash]
    exact fun h => Brackets.opening_spec.1 (Option.some.inj h).symm

/-- The loop of `parsepnum` finds the opening bracket, unless it is the first character. -/
theorem findBefore_partSubject : findBefore (partSubject before after b (Nat.toDigits 10 k) n) b.opening
      (before ++ b.opening :: Nat.toDigits 10 k).length = if before = [] then none else some before.length := by
  have hle : before.length ≤ (before ++ b.opening :: Nat.toDigits 10 k).length := by
    rw [List.length_append]
    exact Nat.le_add_right _ _
  rw [findBefore_skip hle fun i hlow hhigh => ne_opening hlow hhigh]
  cases before with
  | nil => rfl
  | cons c before =>
    have hbracket : (partSubject (c :: before) after b (Nat.toDigits 10 k) n)[before.length + 1]? = some b.opening := by
      unfold partSubject
      rw [List.append_assoc, List.getElem?_append_right (by simp), List.length_cons, Nat.sub_self]
      rfl
    rw [List.length_cons, findBefore, if_pos hbracket, if_neg (by simp)]

/-- The closing bracket is the first one behind the slash. -/
theorem takeWhile_closing : (Nat.toDigits 10 n ++ b.closing :: after).takeWhile (fun c => c ≠ ')' && c ≠ ']') =
    Nat.toDigits 10 n := by
  have hdigits : ∀ c ∈ Nat.toDigits 10 n, (decide (c ≠ ')') && decide (c ≠ ']')) = true := fun c hc => by
    simp only [Bool.and_eq_true, decide_eq_true_eq]
    exact ⟨fun h => not_mem_toDigits (by rfl) (h ▸ hc), fun h => not_mem_toDigits (by rfl) (h ▸ hc)⟩
  rw [List.takeWhile_append_of_pos hdigits, List.takeWhile_cons_of_neg, List.append_nil]
  rcases (Brackets.closing_spec (b := b)).1 with h | h <;> simp [h]

theorem parsepnum_partSubject (hn : n < 2 ^ 31) (hk : 1 ≤ k) (hkn : k ≤ n) :
    parsepnum (partSubject before after b (Nat.toDigits 10 k) n) (before ++ b.opening :: Nat.toDigits 10 k).length =
      if before = [] then none
      else some ⟨Int32.ofInt n, Int32.ofInt k, Int32.ofNat (before.length + 1),
        Int32.ofNat ((before ++ b.opening :: Nat.toDigits 10 k).length + 1 + (Nat.toDigits 10 n).length)⟩ := by
  have hclose : (partSubject before after b (Nat.toDigits 10 k) n)[(before ++ b.opening :: Nat.toDigits 10 k).length + 1 +
      (Nat.toDigits 10 n).length]? = some b.closing := by
    rw [← List.getElem?_drop, drop_slash, List.getElem?_append_right le_rfl, Nat.sub_self]
    rfl
  unfold parsepnum
  dsimp only
  rw [drop_slash, takeWhile_closing, hclose]
  dsimp only
  rw [Brackets.closing_spec.2, findBefore_partSubject]
  by_cases hbefore : before = []
  · rw [if_pos hbefore, if_pos hbefore]
  · rw [if_neg hbefore, if_neg hbefore]
    dsimp only
    rw [numberUpTo_toDigits (by omega) (by rfl) drop_opening, numberUpTo_toDigits hn Brackets.closing_isDigit drop_slash]
    dsimp only
    have hle : ¬Int32.ofInt (n : Int) < Int32.ofInt (k : Int) := by
      rw [Int32.lt_iff_toInt_lt, toInt_ofInt_nat hn, toInt_ofInt_nat (by omega)]
      omega
    have hzero : Int32.ofInt (k : Int) ≠ 0 := fun h => by
      have := congrArg Int32.toInt h
      rw [toInt_ofInt_nat (by omega)] at this
      exact absurd this (by simp; omega)
    rw [if_neg hle, if_neg hzero]

/-- The loop of `set` comes down to the slash of the part number, and finds a part number there unless the
    bracket is the first character. -/
theorem findPnum_partSubject (hafter : '/' ∉ after) (hn : n < 2 ^ 31) (hk : 1 ≤ k) (hkn : k ≤ n) :
    findPnum (partSubject before after b (Nat.toDigits 10 k) n)
      ((partSubject before after b (Nat.toDigits 10 k) n).length - 3) 0 =
      if before = [] then (-1, none)
      else (Int32.ofInt n, some ((before ++ b.opening :: Nat.toDigits 10 k).length,
        ⟨Int32.ofInt n, Int32.ofInt k, Int32.ofNat (before.length + 1),
          Int32.ofNat ((before ++ b.opening :: Nat.toDigits 10 k).length + 1 + (Nat.toDigits 10 n).length)⟩)) := by
  have hdigits : ∀ m, '/' ∉ Nat.toDigits 10 m := fun m => not_mem_toDigits (by rfl)
  have htail : '/' ∉ Nat.toDigits 10 n ++ b.closing :: after := fun h => by
    rcases List.mem_append.mp h with h | h
    · exact hdigits n h
    · rcases List.mem_cons.mp h with h | h
      · exact Brackets.closing_ne_slash h.symm
      · exact hafter h
  have hpos : 0 < (Nat.toDigits 10 n).length := List.length_pos_iff.mpr Nat.toDigits_ne_nil
  have hle : (before ++ b.opening :: Nat.toDigits 10 k).length ≤
      (partSubject before after b (Nat.toDigits 10 k) n).length - 3 := by
    have hlen : (partSubject before after b (Nat.toDigits 10 k) n).length = (before ++ b.opening :: Nat.toDigits 10 k).length +
        ((Nat.toDigits 10 n).length + (after.length + 1) + 1) := by
      unfold partSubject
      rw [List.length_append, List.length_cons, @List.length_append _ (Nat.toDigits 10 n), List.length_cons]
    omega
  have hlast : ∀ i, (before ++ b.opening :: Nat.toDigits 10 k).length < i →
      (partSubject before after b (Nat.toDigits 10 k) n)[i]? ≠ some '/' := fun i hlow => getElem?_ne_of_not_mem hlow htail
  rw [findPnum_skip hle fun i hlow _ => hlast i hlow]
  obtain ⟨m, hm⟩ : ∃ m, (before ++ b.opening :: Nat.toDigits 10 k).length = m + 1 :=
    ⟨before.length + (Nat.toDigits 10 k).length, by rw [List.length_append, List.length_cons]; omega⟩
  have hslash := @partSubject_slash before after b k n
  have hparse := @parsepnum_partSubject before after b k n hn hk hkn
  rw [hm] at hslash hparse ⊢
  rw [findPnum, if_pos hslash, hparse]
  by_cases hbefore : before = []
  · rw [if_pos hbefore, if_pos hbefore]
    dsimp only
    refine findPnum_skip (Nat.zero_le m) fun i _ him h => ?_
    have hmem := getElem?_ne_of_append (show i < (before ++ b.opening :: Nat.toDigits 10 k).length by omega) h
    rw [hbefore, List.nil_append] at hmem
    rcases List.mem_cons.mp hmem with h | h
    · exact Brackets.opening_spec.1 h.symm
    · exact hdigits k h
  · rw [if_neg hbefore, if_neg hbefore]
    dsimp only
    rw [if_pos]
    rw [Int32.le_iff_toInt_le, toInt_ofInt_nat hn]
    exact Int.natCast_nonneg n

/-! ### The header -/

variable {serverid anum bytes lines : UInt64} {group author mid refstr : Text} {d : Int64}

/-- The header of a part whose bracket is the first character has no part number. -/
theorem filled_partSubject_nil (hafter : '/' ∉ after) (hn : n < 2 ^ 31) (hk : 1 ≤ k) (hkn : k ≤ n) :
    (NntpHeader.filled serverid group (partSubject [] after b (Nat.toDigits 10 k) n)
      author anum d bytes lines mid refstr).partnum = -1 := by
  unfold NntpHeader.filled
  rw [findPnum_partSubject hafter hn hk hkn, if_pos rfl]

/-- The key of a part: its number is nowhere in it. -/
def partKey (before after : Text) (b : Brackets) (n : Nat) (author refstr : Text) : NntpFileBase where
  req := Int32.ofInt n
  partoff := Int32.ofNat (before.length + 1)
  author := author
  subject := partSubject before after b ['*'] n
  references := if refstr.isEmpty then [] else CString.split ' ' refstr

theorem filled_partSubject (hafter : '/' ∉ after) (hn : n < 2 ^ 31) (hk : 1 ≤ k) (hkn : k ≤ n) (hbefore : before ≠ [])
    (hlen : before.length + 1 < 2 ^ 31) :
    (NntpHeader.filled serverid group (partSubject before after b (Nat.toDigits 10 k) n) author anum d bytes lines mid
        refstr).toNntpFileBase = partKey before after b n author refstr ∧
      (NntpHeader.filled serverid group (partSubject before after b (Nat.toDigits 10 k) n) author anum d bytes lines mid
        refstr).partnum = Int32.ofInt k := by
  have hne : Int32.ofInt (n : Int) ≠ 0 := fun h => by
    have := congrArg Int32.toInt h
    rw [toInt_ofInt_nat hn] at this
    exact absurd this (by simp; omega)
  have hoff : (Int32.ofNat (before.length + 1)).toNatClampNeg = before.length + 1 := Int32.toNatClampNeg_ofNat_of_lt hlen
  have htake : (partSubject before after b (Nat.toDigits 10 k) n).take (before.length + 1) = before ++ [b.opening] := by
    unfold partSubject
    rw [List.append_assoc, List.take_append, List.take_of_length_le (Nat.le_succ _), Nat.add_sub_cancel_left]
    rfl
  have hdrop : (partSubject before after b (Nat.toDigits 10 k) n).drop (before ++ b.opening :: Nat.toDigits 10 k).length =
      '/' :: (Nat.toDigits 10 n ++ b.closing :: after) := by
    unfold partSubject
    rw [List.drop_left]
  have hsubject : before ++ [b.opening] ++ '*' :: '/' :: (Nat.toDigits 10 n ++ b.closing :: after) =
    partSubject before after b ['*'] n := by
    simp [partSubject]
  unfold NntpHeader.filled
  rw [findPnum_partSubject hafter hn hk hkn, if_neg hbefore]
  dsimp only
  rw [if_neg hne, hoff, htake, hdrop, hsubject]
  exact ⟨rfl, rfl⟩

/-- At the slash of a part whose bracket's index is an `int` the subject is put together. -/
theorem appendThrows_partSubject (hafter : '/' ∉ after) (hn : n < 2 ^ 31) (hk : 1 ≤ k) (hkn : k ≤ n) (hbefore : before ≠ [])
    (hlen : before.length + 1 < 2 ^ 31) : appendThrows (partSubject before after b (Nat.toDigits 10 k) n) = false := by
  have hoff : ¬Int32.ofNat (before.length + 1) < 0 := by
    rw [Int32.lt_iff_toInt_lt, Int32.toInt_ofNat_of_lt hlen]
    exact not_lt.mpr (Int.natCast_nonneg _)
  unfold appendThrows
  rw [findPnum_partSubject hafter hn hk hkn, if_neg hbefore]
  dsimp only
  rw [decide_eq_false hoff, Bool.and_false]

end

/-- The parts of one post get one key, whatever the widths of their numbers: `set` gives the part number that the subject
    says, and every other part the same key, if and only if something stands before the bracket and the bracket's index
    is an `int`. -/
theorem part_numbered_iff {before after : Text} {b : Brackets} {k n : Nat} (hafter : '/' ∉ after) (hk : 1 ≤ k) (hkn : k ≤ n)
    (hn : n ≤ 2 ^ 31 - 1) {serverid anum bytes lines : UInt64} {group author mid refstr : Text} {d : Int64} :
    (∃ h, NntpHeader.set serverid group (partSubject before after b (Nat.toDigits 10 k) n) author anum d bytes lines mid
          refstr = some h ∧ h.Numbered before after b k n ∧
      ∀ (k' : Nat) (serverid' anum' bytes' lines' : UInt64) (group' mid' : Text) (d' : Int64), 1 ≤ k' → k' ≤ n →
        ∃ h', NntpHeader.set serverid' group' (partSubject before after b (Nat.toDigits 10 k') n) author anum' d' bytes' lines'
            mid' refstr = some h' ∧ h'.toNntpFileBase = h.toNntpFileBase) ↔
      before ≠ [] ∧ before.length + 1 ≤ 2 ^ 31 - 1 := by
  have hn' : n < 2 ^ 31 := by omega
  constructor
  · rintro ⟨h, hset, ⟨-, hpartnum, hpartoff, -⟩, -⟩
    obtain ⟨-, hfilled⟩ := NntpHeader.set_eq_some_iff.mp hset
    constructor
    · rintro rfl
      rw [← hfilled, filled_partSubject_nil hafter hn' hk hkn] at hpartnum
      have : (-1 : Int32).toInt = -1 := rfl
      omega
    · have := Int32.toInt_lt h.partoff
      omega
  · rintro ⟨hbefore, hlen⟩
    have hlen' : before.length + 1 < 2 ^ 31 := by omega
    obtain ⟨hkey, hpartnum⟩ :=
      @filled_partSubject before after b k n serverid anum bytes lines group author mid refstr d hafter hn' hk
      hkn hbefore hlen'
    refine ⟨_, NntpHeader.set_eq_some_iff.mpr ⟨appendThrows_partSubject hafter hn' hk hkn hbefore hlen', rfl⟩,
      ⟨?_, ?_, ?_, ?_⟩, fun k' serverid' anum' bytes' lines' group' mid' d' hk' hkn' => ?_⟩
    · rw [hkey]
      exact toInt_ofInt_nat hn'
    · rw [hpartnum]
      exact toInt_ofInt_nat (by omega)
    · rw [hkey]
      exact Int32.toInt_ofNat_of_lt hlen'
    · rw [hkey]
      rfl
    · refine ⟨_, NntpHeader.set_eq_some_iff.mpr ⟨appendThrows_partSubject hafter hn' hk' hkn' hbefore hlen', rfl⟩, ?_⟩
      rw [hkey]
      exact (filled_partSubject hafter hn' hk' hkn' hbefore hlen').1

/-- Part 9 of 10 of a file, whose number is narrower than that of the last part. -/
theorem part_numbered_nine :
    ∃ h, NntpHeader.set 1 [] (partSubject "f ".toList [] .round "9".toList 10) [] 1 0 0 0 [] [] = some h ∧
      h.Numbered "f ".toList [] .round 9 10 := by
  obtain ⟨h, hset, hnumbered, -⟩ :=
    (@part_numbered_iff "f ".toList [] .round 9 10 (by simp) (by omega) (by omega) (by omega) 1 1 0 0 [] [] [] [] 0).mpr
      (by decide)
  exact ⟨h, hset, hnumbered⟩

/-- A part number at the start of the subject is not found, and the parts have different keys. -/
theorem part_number_at_start :
    (∀ h, NntpHeader.set 1 [] "(1/2)".toList [] 1 0 0 0 [] [] = some h → ¬h.Numbered [] [] .round 1 2) ∧
    (NntpHeader.set 1 [] "(1/2)".toList [] 1 0 0 0 [] []).map (·.toNntpFileBase) ≠
      (NntpHeader.set 1 [] "(2/2)".toList [] 2 0 0 0 [] []).map (·.toNntpFileBase) ∧
    "(1/2)".toList = partSubject [] [] .round (Nat.toDigits 10 1) 2 := by
  refine ⟨fun h hset hnumbered => ?_, by decide, by decide⟩
  obtain ⟨-, rfl⟩ := NntpHeader.set_eq_some_iff.mp hset
  exact absurd hnumbered.2.1 (by decide)

end Nget

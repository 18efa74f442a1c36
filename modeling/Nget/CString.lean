import Nget.Lib.FixedWidth

/-! The C library functions on strings that the program uses. A string is a list of characters, one for
    each byte; a `char *` reads it up to the first NUL. -/

namespace Nget

abbrev Text := List Char

instance instLawfulBEqText : LawfulBEq Text := inferInstance

namespace CString

def nul : Char := '\x00'

/-- The C string that starts a buffer. -/
def cstr (s : Text) : Text := s.takeWhile (· ≠ nul)

/-- `isspace` in the C locale. -/
def isspace (c : Char) : Bool := c = ' ' || '\t' ≤ c && c ≤ '\r'

/-- What `strtol` and `strtoul` scan in base 10: the sign, the magnitude, and the text from `endptr` on. -/
structure Scan where
  negative : Bool
  magnitude : Nat
  rest : Text
deriving DecidableEq

/-- The digits of a number after its sign. Without digits there is no number, and `endptr` is the start. -/
def scanDigits (s : Text) (negative : Bool) (digits : Text) : Scan :=
  if (digits.takeWhile Char.isDigit).isEmpty then ⟨false, 0, s⟩
  else ⟨negative, Nat.ofDigitChars 10 (digits.takeWhile Char.isDigit) 0, digits.dropWhile Char.isDigit⟩

def scan (s : Text) : Scan :=
  match s.dropWhile isspace with
  | '-' :: digits => scanDigits s true digits
  | '+' :: digits => scanDigits s false digits
  | digits => scanDigits s false digits

/-- `strtoul(s, NULL, 10)`: a value above `ULONG_MAX` saturates, a negative one wraps. -/
def atoul (s : Text) : UInt64 :=
  let n := scan s
  if 2 ^ 64 ≤ n.magnitude then 0xFFFFFFFFFFFFFFFF
  else if n.negative then 0 - UInt64.ofNat n.magnitude
  else UInt64.ofNat n.magnitude

/-- `strtol(s, &endptr, 10)`: the value, which saturates, and the text from `endptr` on. -/
def strtol (s : Text) : Int × Text :=
  let n := scan s
  (if n.negative then max (-(2 ^ 63)) (-(n.magnitude : Int)) else min (2 ^ 63 - 1) (n.magnitude : Int), n.rest)

/-- `atoi(s)`, and any `strtol` that is stored in an `int`. -/
def atoi (s : Text) : Int32 := Int32.ofInt (strtol s).1

/-- `atol(s)`. -/
def atol (s : Text) : Int64 := Int64.ofInt (strtol s).1

/-- `%lu`. -/
def printUlong (n : UInt64) : Text := Nat.toDigits 10 n.toNat

/-- `%i`. -/
def printInt (n : Int32) : Text :=
  if n < 0 then '-' :: Nat.toDigits 10 n.toInt.natAbs else Nat.toDigits 10 n.toInt.natAbs

/-- `%li`. -/
def printLong (n : Int64) : Text :=
  if n < 0 then '-' :: Nat.toDigits 10 n.toInt.natAbs else Nat.toDigits 10 n.toInt.natAbs

/-- `%lu` of a `time_t`. -/
def printTime (t : Int64) : Text := printUlong t.toUInt64

/-- The `time_t` that `atoul` is stored in. -/
def atotime (s : Text) : Int64 := (atoul s).toInt64

/-- `goodstrtok`: the token up to the next separator, and the rest of the string, if there is one. -/
def goodstrtok (sep : Char) : Option Text → Option (Text × Option Text)
  | none => none
  | some cur =>
    match cur.dropWhile (· ≠ sep) with
    | [] => some (cur, none)
    | _ :: rest => some (cur.takeWhile (· ≠ sep), some rest)

/-- The tokens that `goodstrtok` gives when it is repeated until it gives none. -/
def split (sep : Char) : Text → List Text
  | [] => [[]]
  | c :: cs =>
    if c = sep then [] :: split sep cs
    else
      match split sep cs with
      | [] => [[c]]
      | t :: ts => (c :: t) :: ts

theorem goodstrtok_split {sep : Char} : ∀ s : Text, ∃ t rest, goodstrtok sep (some s) = some (t, rest) ∧
    split sep s = t :: (rest.map (split sep)).getD []
  | [] => ⟨[], none, rfl, rfl⟩
  | c :: cs => by
    by_cases hc : c = sep
    · exact ⟨[], some cs, by simp [goodstrtok, hc], by simp [split, hc]⟩
    · obtain ⟨t, rest, htok, hsplit⟩ := @goodstrtok_split sep cs
      refine ⟨c :: t, rest, ?_, by simp [split, hc, hsplit]⟩
      have hcons : (c :: cs).dropWhile (· ≠ sep) = cs.dropWhile (· ≠ sep) := List.dropWhile_cons_of_pos (by simpa using hc)
      have htake : (c :: cs).takeWhile (· ≠ sep) = c :: cs.takeWhile (· ≠ sep) := List.takeWhile_cons_of_pos (by simpa using hc)
      unfold goodstrtok at htok ⊢
      dsimp only at htok ⊢
      rw [hcons, htake]
      split at htok <;> cases htok <;> rfl

/-- Tokens that hold no separator, joined by it, are given back. -/
theorem split_append {sep : Char} {t rest : Text} (ht : sep ∉ t) : split sep (t ++ sep :: rest) = t :: split sep rest := by
  induction t with
  | nil => simp [split]
  | cons c t ih =>
    simp only [List.mem_cons, not_or] at ht
    simp [split, Ne.symm ht.1, ih ht.2]

theorem split_of_not_mem {sep : Char} {t : Text} (ht : sep ∉ t) : split sep t = [t] := by
  induction t with
  | nil => rfl
  | cons c t ih =>
    simp only [List.mem_cons, not_or] at ht
    simp [split, Ne.symm ht.1, ih ht.2]

/-- A token is a piece of the string without separators. -/
theorem mem_split {sep : Char} : ∀ {s t : Text}, t ∈ split sep s → sep ∉ t ∧ t ⊆ s
  | [], t, ht => by
    rw [split, List.mem_singleton] at ht
    simp [ht]
  | c :: cs, t, ht => by
    unfold split at ht
    split at ht
    · rcases List.mem_cons.mp ht with rfl | ht
      · simp
      · exact ⟨(mem_split ht).1, List.subset_cons_of_subset c (mem_split ht).2⟩
    · next hc =>
      obtain ⟨u, rest, -, hsplit⟩ := @goodstrtok_split sep cs
      rw [hsplit] at ht
      rcases List.mem_cons.mp ht with rfl | ht
      · have hu := @mem_split sep cs u (hsplit ▸ List.mem_cons_self)
        exact ⟨by simp [Ne.symm hc, hu.1], List.cons_subset_cons c hu.2⟩
      · have hu := @mem_split sep cs t (hsplit ▸ List.mem_cons_of_mem u ht)
        exact ⟨hu.1, List.subset_cons_of_subset c hu.2⟩

/-- Fields with a separator between them. -/
def joinWith (sep : Char) : List Text → Text
  | [] => []
  | [t] => t
  | t :: ts => t ++ sep :: joinWith sep ts

theorem split_joinWith {sep : Char} : ∀ {ts : List Text}, ts ≠ [] → (∀ t ∈ ts, sep ∉ t) → split sep (joinWith sep ts) = ts
  | [t], _, ht => split_of_not_mem (ht t (by simp))
  | t :: u :: ts, _, ht => by
    rw [joinWith, split_append (ht t (by simp)), split_joinWith (by simp) fun t h => ht t (by simp [h])]
    simp

theorem mem_joinWith {sep c : Char} : ∀ {ts : List Text}, c ∈ joinWith sep ts → c = sep ∨ ∃ t ∈ ts, c ∈ t
  | [t], hc => Or.inr ⟨t, by simp, hc⟩
  | t :: u :: ts, hc => by
    rw [joinWith, List.mem_append, List.mem_cons] at hc
    rcases hc with hc | rfl | hc
    · exact Or.inr ⟨t, by simp, hc⟩
    · exact Or.inl rfl
    · rcases mem_joinWith hc with rfl | ⟨v, hv, hc⟩
      · exact Or.inl rfl
      · exact Or.inr ⟨v, List.mem_cons_of_mem _ hv, hc⟩
    · simp

theorem cstr_of_not_mem {s : Text} (hs : nul ∉ s) : cstr s = s :=
  List.takeWhile_eq_self_iff.mpr fun c hc => by simpa using fun h : c = nul => hs (h ▸ hc)

theorem cstr_subset {s : Text} : cstr s ⊆ s := (List.takeWhile_prefix _).subset

theorem ne_nul_of_mem_cstr {s : Text} {c : Char} (hc : c ∈ cstr s) : c ≠ nul := by
  simpa using List.mem_takeWhile_imp hc

/-! ### What is printed is read back -/

theorem isDigit_of_mem_toDigits {n : Nat} {c : Char} (hc : c ∈ Nat.toDigits 10 n) : c.isDigit = true :=
  Nat.isDigit_of_mem_toDigits (by decide) (by decide) hc

theorem scanDigits_toDigits {s rest : Text} {negative : Bool} {n : Nat} (hrest : ∀ c ∈ rest.head?, c.isDigit = false) :
    scanDigits s negative (Nat.toDigits 10 n ++ rest) = ⟨negative, n, rest⟩ := by
  have hstop : rest.takeWhile Char.isDigit = [] ∧ rest.dropWhile Char.isDigit = rest := by
    cases rest with
    | nil => simp
    | cons c rest => simp [hrest c rfl]
  have htake : (Nat.toDigits 10 n ++ rest).takeWhile Char.isDigit = Nat.toDigits 10 n := by
    rw [List.takeWhile_append_of_pos fun _ => isDigit_of_mem_toDigits, hstop.1, List.append_nil]
  have hdrop : (Nat.toDigits 10 n ++ rest).dropWhile Char.isDigit = rest := by
    rw [List.dropWhile_append_of_pos fun _ => isDigit_of_mem_toDigits, hstop.2]
  unfold scanDigits
  rw [htake, hdrop, if_neg (by simp), Nat.ofDigitChars_ten_toDigits]

theorem not_isspace_of_isDigit {c : Char} (hc : c.isDigit = true) : isspace c = false := by
  simp only [Char.isDigit, ge_iff_le, UInt32.le_iff_toNat_le, Bool.and_eq_true, decide_eq_true_eq] at hc
  have hc' : 48 ≤ c.toNat := hc.1
  simp only [isspace, Bool.or_eq_false_iff, decide_eq_false_iff_not, Bool.and_eq_false_imp, decide_eq_true_eq]
  refine ⟨?_, fun _ hle => ?_⟩
  · rintro rfl
    exact absurd hc' (by decide)
  · exact absurd (hc'.trans (show c.toNat ≤ 13 from hle)) (by decide)

/-- A printed number starts with a digit. -/
theorem toDigits_eq_cons (n : Nat) : ∃ c cs, Nat.toDigits 10 n = c :: cs ∧ c.isDigit = true := by
  cases h : Nat.toDigits 10 n with
  | nil => exact absurd h Nat.toDigits_ne_nil
  | cons c cs => exact ⟨c, cs, rfl, isDigit_of_mem_toDigits (n := n) (by simp [h])⟩

theorem scan_toDigits {rest : Text} {n : Nat} (hrest : ∀ c ∈ rest.head?, c.isDigit = false) :
    scan (Nat.toDigits 10 n ++ rest) = ⟨false, n, rest⟩ := by
  obtain ⟨c, cs, hcs, hc⟩ := toDigits_eq_cons n
  have hdrop : (Nat.toDigits 10 n ++ rest).dropWhile isspace = Nat.toDigits 10 n ++ rest := by
    simp [hcs, not_isspace_of_isDigit hc]
  unfold scan
  rw [hdrop]
  split
  · next heq => simp [show c = '-' by simpa [hcs] using congrArg List.head? heq] at hc
  · next heq => simp [show c = '+' by simpa [hcs] using congrArg List.head? heq] at hc
  · exact scanDigits_toDigits hrest

theorem scan_neg_toDigits {rest : Text} {n : Nat} (hrest : ∀ c ∈ rest.head?, c.isDigit = false) :
    scan ('-' :: Nat.toDigits 10 n ++ rest) = ⟨true, n, rest⟩ := by
  have hdrop : ('-' :: Nat.toDigits 10 n ++ rest).dropWhile isspace = '-' :: (Nat.toDigits 10 n ++ rest) := by
    simp [isspace]
  unfold scan
  rw [hdrop]
  exact scanDigits_toDigits hrest

theorem atoul_printUlong {rest : Text} (n : UInt64) (hrest : ∀ c ∈ rest.head?, c.isDigit = false) :
    atoul (printUlong n ++ rest) = n := by
  have := n.toNat_lt
  unfold atoul printUlong
  rw [scan_toDigits hrest]
  dsimp only
  rw [if_neg (by omega), if_neg (by decide), UInt64.ofNat_toNat]

theorem not_mem_printUlong {c : Char} {n : UInt64} (hc : c.isDigit = false) : c ∉ printUlong n := fun h => by
  have := isDigit_of_mem_toDigits h
  rw [hc] at this
  cases this

theorem atotime_printTime (t : Int64) : atotime (printTime t) = t := by
  have := @atoul_printUlong [] t.toUInt64 (by simp)
  rw [List.append_nil] at this
  simp [atotime, printTime, this]

/-- What `strtol` gives for a printed number that is in the range of a `long`. -/
theorem strtol_print {n : Int} (hlow : -(2 ^ 63) ≤ n) (hhigh : n < 2 ^ 63) :
    (strtol (if n < 0 then '-' :: Nat.toDigits 10 n.natAbs else Nat.toDigits 10 n.natAbs)).1 = n := by
  unfold strtol
  split
  · next hn =>
    have := @scan_neg_toDigits [] n.natAbs (by simp)
    rw [List.append_nil] at this
    rw [this]
    simp only [if_true]
    omega
  · next hn =>
    have := @scan_toDigits [] n.natAbs (by simp)
    rw [List.append_nil] at this
    rw [this]
    simp only [Bool.false_eq_true, if_false]
    omega

theorem atoi_printInt (n : Int32) : atoi (printInt n) = n := by
  have hlow := n.le_toInt
  have hhigh := n.toInt_lt
  have hzero : n < 0 ↔ n.toInt < 0 := Int32.lt_iff_toInt_lt
  unfold atoi printInt
  simp only [hzero]
  rw [strtol_print (by omega) (by omega), Int32.ofInt_toInt]

theorem atol_printLong (n : Int64) : atol (printLong n) = n := by
  have hlow := n.le_toInt
  have hhigh := n.toInt_lt
  have hzero : n < 0 ↔ n.toInt < 0 := Int64.lt_iff_toInt_lt
  unfold atol printLong
  simp only [hzero]
  rw [strtol_print (by omega) (by omega), Int64.ofInt_toInt]

/-- A printed `long` has digits, and a sign if it is negative. -/
theorem not_mem_printLong {c : Char} {n : Int64} (hc : c.isDigit = false) (hminus : c ≠ '-') : c ∉ printLong n := fun h => by
  have hdigits : c ∉ Nat.toDigits 10 n.toInt.natAbs := fun h => by
    have := isDigit_of_mem_toDigits h
    rw [hc] at this
    cases this
  unfold printLong at h
  split at h
  · exact (List.mem_cons.mp h).elim hminus hdigits
  · exact hdigits h

end CString
end Nget

import Nget.Theorems.PartNumber

/-! What `set` replaces by `*`: the text between the opening bracket and the slash. It is a numeral of the part number
    just when digits alone stand there, of a value that is an `int`, and then the subject can be read back, so that two
    subjects with the same rewritten subject, offset and number differ in leading zeros at most. -/

namespace Nget
open CString

/-! ### Numerals -/

section
variable {ds K tail : Text} {c : Char}

theorem exists_digitChar (hc : c.isDigit = true) : ∃ d < 10, c = Nat.digitChar d := by
  simp only [Char.isDigit, ge_iff_le, UInt32.le_iff_toNat_le, Bool.and_eq_true, decide_eq_true_eq] at hc
  have hlow : 48 ≤ c.toNat := hc.1
  have hhigh : c.toNat ≤ 57 := hc.2
  refine ⟨c.toNat - 48, by omega, Char.toNat_inj.mp ?_⟩
  rw [Nat.toNat_digitChar_of_lt_ten (by omega)]
  omega

/-- Digits are those of their value, behind leading zeros. -/
theorem dropWhile_zero (hds : ∀ c ∈ ds, c.isDigit = true) :
    ds.dropWhile (· = '0') = if Nat.ofDigitChars 10 ds 0 = 0 then [] else Nat.toDigits 10 (Nat.ofDigitChars 10 ds 0) := by
  induction ds using List.reverseRecOn with
  | nil => rfl
  | append_singleton ds c ih =>
    have ih := ih fun c hc => hds c (List.mem_append_left _ hc)
    obtain ⟨d, hd, rfl⟩ := exists_digitChar (hds c (by simp))
    rw [Nat.ofDigitChars_append, Nat.ofDigitChars_cons_digitChar_of_lt_ten hd, Nat.ofDigitChars_nil, List.dropWhile_append, ih]
    generalize Nat.ofDigitChars 10 ds 0 = v
    rcases Nat.eq_zero_or_pos v with rfl | hv
    · rcases Nat.eq_zero_or_pos d with rfl | hd'
      · rfl
      · simp [hd'.ne', Nat.toDigits_of_lt_base hd]
    · rw [if_neg hv.ne', if_neg (by simp), if_neg (by omega), ← Nat.toDigits_of_lt_base hd,
        Nat.toDigits_append_toDigits (by decide) hv hd]

theorem scan_digits (hK : K ≠ []) (hdigits : ∀ c ∈ K, c.isDigit = true) (hc : c.isDigit = false) :
    scan (K ++ c :: tail) = ⟨false, Nat.ofDigitChars 10 K 0, c :: tail⟩ := by
  have htake : (K ++ c :: tail).takeWhile Char.isDigit = K := by
    rw [List.takeWhile_append_of_pos hdigits, List.takeWhile_cons_of_neg (by simp [hc]), List.append_nil]
  have hdrop : (K ++ c :: tail).dropWhile Char.isDigit = c :: tail := by
    rw [List.dropWhile_append_of_pos hdigits, List.dropWhile_cons_of_neg (by simp [hc])]
  have hscan : ∀ s, scanDigits s false (K ++ c :: tail) = ⟨false, Nat.ofDigitChars 10 K 0, c :: tail⟩ := fun s => by
    rw [scanDigits, htake, hdrop, if_neg (by simpa using hK)]
  obtain ⟨k, K, rfl⟩ := List.exists_cons_of_ne_nil hK
  have hk := hdigits k List.mem_cons_self
  have hspace : (k :: K ++ c :: tail).dropWhile isspace = k :: K ++ c :: tail := by
    rw [List.cons_append, List.dropWhile_cons_of_neg (by simp [not_isspace_of_isDigit hk])]
  unfold scan
  rw [hspace]
  split
  · next heq =>
    rw [(List.cons_eq_cons.mp heq).1] at hk
    exact absurd hk (by decide)
  · next heq =>
    rw [(List.cons_eq_cons.mp heq).1] at hk
    exact absurd hk (by decide)
  · exact hscan _

/-- A numeral whose value is an `int` is read as that value. -/
theorem atoi_digits (hK : K ≠ []) (hdigits : ∀ c ∈ K, c.isDigit = true) (hc : c.isDigit = false)
    (hvalue : Nat.ofDigitChars 10 K 0 < 2 ^ 31) : (atoi (K ++ c :: tail)).toInt = Nat.ofDigitChars 10 K 0 := by
  unfold atoi strtol
  rw [scan_digits hK hdigits hc]
  dsimp only
  rw [if_neg (by decide), min_eq_right (by omega)]
  exact toInt_ofInt_nat hvalue

end

/-! ### What the loops find -/

section
variable {str : Text} {m stop : Char} {n s p q : Nat} {v req req' : Int32} {pn : Pnum}

theorem findBefore_eq_some : ∀ {n : Nat}, findBefore str m n = some q →
    0 < q ∧ q ≤ n ∧ str[q]? = some m ∧ ∀ i, q < i → i ≤ n → str[i]? ≠ some m
  | 0, h => by cases h
  | n + 1, h => by
    unfold findBefore at h
    split at h
    · next hm =>
      cases h
      exact ⟨Nat.succ_pos n, le_rfl, hm, fun i hi hin => absurd hin (not_le.mpr hi)⟩
    · next hm =>
      obtain ⟨hpos, hle, hq, hnone⟩ := findBefore_eq_some h
      refine ⟨hpos, Nat.le_succ_of_le hle, hq, fun i hi hin => ?_⟩
      rcases hin.lt_or_eq with hlt | rfl
      · exact hnone i hi (Nat.lt_succ_iff.mp hlt)
      · exact hm

theorem numberUpTo_eq_some (h : numberUpTo str p stop = some v) : v = atoi (str.drop p) := by
  unfold numberUpTo at h
  dsimp only at h
  split at h
  · exact (Option.some.inj h).symm
  · cases h

/-- About the slash `s` stand the numbers `m`, from the bracket at `q` up to the slash, and `m'`, from the slash up to the
    first closing bracket. -/
def NumbersAt (str : Text) (s q : Nat) (m m' : Int32) : Prop := ∃ (b : Brackets) (n after : Text),
  str.drop (s + 1) = n ++ b.closing :: after ∧ (∀ c ∈ n, c ≠ ')' ∧ c ≠ ']') ∧ findBefore str b.opening s = some q ∧
    numberUpTo str (q + 1) '/' = some m ∧ numberUpTo str (s + 1) b.closing = some m'

/-- `parsepnum` gives the numbers about the slash where the first is not above the second. -/
theorem parsepnum_numbers (h : parsepnum str s = some pn) : ∃ q m', NumbersAt str s q pn.partnum m' ∧ pn.partnum ≤ m' ∧
    pn.req = (if pn.partnum = 0 then 0 else m') ∧ pn.partoff = Int32.ofNat (q + 1) := by
  unfold parsepnum at h
  dsimp only at h
  obtain ⟨n, hn⟩ : ∃ n, (str.drop (s + 1)).takeWhile (fun c => c ≠ ')' && c ≠ ']') = n := ⟨_, rfl⟩
  have hopen : ∀ c ∈ n, c ≠ ')' ∧ c ≠ ']' := fun c hc => by
    have := List.mem_takeWhile_imp (hn ▸ hc)
    simpa using this
  have hsplit : str.drop (s + 1) = n ++ (str.drop (s + 1)).dropWhile (fun c => c ≠ ')' && c ≠ ']') := by
    rw [← hn, List.takeWhile_append_dropWhile]
  rw [hn] at h
  split at h
  · cases h
  next m2 hm2 =>
  rw [← List.getElem?_drop, hsplit, List.getElem?_append_right le_rfl, Nat.sub_self, ← List.head?_eq_getElem?] at hm2
  have hclose := List.head?_dropWhile_not (fun c => decide (c ≠ ')') && decide (c ≠ ']')) (str.drop (s + 1))
  rw [hm2] at hclose
  obtain ⟨after, hafter⟩ := List.head?_eq_some_iff.mp hm2
  rw [hafter] at hsplit
  obtain ⟨b, rfl⟩ : ∃ b : Brackets, m2 = b.closing := by
    by_cases hround : m2 = ')'
    · exact ⟨.round, hround⟩
    · exact ⟨.square, show m2 = ']' by simpa [hround] using hclose⟩
  rw [Brackets.closing_spec.2] at h
  split at h
  · cases h
  next q hq =>
  split at h
  · next partnum req hpartnum hreq =>
    split at h
    · cases h
    · next hle =>
      cases h
      exact ⟨q, req, ⟨b, n, after, hsplit, hopen, hq, hpartnum, hreq⟩, not_lt.mp hle, rfl, rfl⟩
  · cases h

/-- Where two numbers stand about the slash, the first not above the second, `parsepnum` gives them. -/
theorem NumbersAt.parsepnum_eq {m m' : Int32} (h : NumbersAt str s q m m') (hle : m ≤ m') :
    ∃ pn, parsepnum str s = some pn ∧ pn.req = (if m = 0 then 0 else m') := by
  obtain ⟨b, n, after, hdrop, hopen, hq, hm, hm'⟩ := h
  have hclosing : (n ++ b.closing :: after).takeWhile (fun c => c ≠ ')' && c ≠ ']') = n := by
    rw [List.takeWhile_append_of_pos fun c hc => by simpa using hopen c hc, List.takeWhile_cons_of_neg (by cases b <;> decide),
      List.append_nil]
  have hm2 : str[s + 1 + n.length]? = some b.closing := by
    rw [← List.getElem?_drop, hdrop, List.getElem?_append_right le_rfl, Nat.sub_self]
    rfl
  refine ⟨⟨if m = 0 then 0 else m', m, Int32.ofNat (q + 1), Int32.ofNat (s + 1 + n.length)⟩, ?_, rfl⟩
  unfold parsepnum
  dsimp only
  rw [hdrop, hclosing, hm2]
  dsimp only
  rw [Brackets.closing_spec.2, hq]
  dsimp only
  rw [hm, hm']
  exact if_neg (not_lt.mpr hle)

/-- What a part number at the slash `s` says of the subject, with the bracket at `q` and the count's text `n`. -/
structure AtSlash (str : Text) (s q : Nat) (b : Brackets) (n after : Text) (pn : Pnum) : Prop where
  behind : str.drop (s + 1) = n ++ b.closing :: after
  open_ : ∀ c ∈ n, c ≠ ')' ∧ c ≠ ']'
  bracket : findBefore str b.opening s = some q
  partnum : pn.partnum = atoi (str.drop (q + 1))
  partoff : pn.partoff = Int32.ofNat (q + 1)

theorem parsepnum_eq_some (h : parsepnum str s = some pn) : ∃ q b n after, AtSlash str s q b n after pn := by
  obtain ⟨q, m', ⟨b, n, after, hdrop, hopen, hq, hm, -⟩, -, -, hoff⟩ := parsepnum_numbers h
  exact ⟨q, b, n, after, hdrop, hopen, hq, numberUpTo_eq_some hm, hoff⟩

/-- The last slash that has a part number. -/
structure LastPnum (str : Text) (s : Nat) : Prop where
  pos : 0 < s
  le : s ≤ str.length - 3
  slash : str[s]? = some '/'
  found : ∃ pn, parsepnum str s = some pn ∧ 0 ≤ pn.req
  last : ∀ i, s < i → i ≤ str.length - 3 → str[i]? = some '/' → ∀ pn, parsepnum str i = some pn → pn.req < 0

theorem LastPnum.unique {t : Nat} (hs : LastPnum str s) (ht : LastPnum str t) : s = t := by
  rcases lt_trichotomy s t with hlt | heq | hlt
  · obtain ⟨pn, hpn, hreq⟩ := ht.found
    exact absurd (hs.last t hlt ht.le ht.slash pn hpn) (not_lt.mpr hreq)
  · exact heq
  · obtain ⟨pn, hpn, hreq⟩ := hs.found
    exact absurd (ht.last s hlt hs.le hs.slash pn hpn) (not_lt.mpr hreq)

end

/-! ### The slashes -/

section
variable {str : Text} {s q : Nat} {m m' : Int32}

/-- The numbers about the slash pass for a part number: the first is not above the second, and it is zero or the second is
    not negative. -/
def Passes (str : Text) (s q : Nat) (m m' : Int32) : Prop := NumbersAt str s q m m' ∧ m ≤ m' ∧ (m = 0 ∨ 0 ≤ m')

/-- The `req` that a slash leaves where the numbers about it do not pass. -/
def LeavesReq (str : Text) (s : Nat) (v : Int32) : Prop :=
  (∃ q m, NumbersAt str s q m v ∧ m ≤ v) ∨ (∀ q m m', NumbersAt str s q m m' → m' < m) ∧ v = -1

theorem passes_iff : (∃ q m m', Passes str s q m m') ↔ ∃ p, parsepnum str s = some p ∧ 0 ≤ p.req := by
  constructor
  · rintro ⟨q, m, m', hnumbers, hle, hpass⟩
    obtain ⟨p, hp, hreq⟩ := hnumbers.parsepnum_eq hle
    refine ⟨p, hp, ?_⟩
    rw [hreq]
    split
    · exact le_rfl
    · next hne => exact hpass.resolve_left hne
  · rintro ⟨p, hp, hreq⟩
    obtain ⟨q, m', hnumbers, hle, heq, -⟩ := parsepnum_numbers hp
    refine ⟨q, p.partnum, m', hnumbers, hle, ?_⟩
    rw [heq] at hreq
    split at hreq
    · next hzero => exact Or.inl hzero
    · exact Or.inr hreq

theorem leavesReq_of_not_passes (h : ¬∃ q m m', Passes str s q m m') :
    LeavesReq str s (((parsepnum str s).map (·.req)).getD (-1)) := by
  cases hp : parsepnum str s with
  | none =>
    refine Or.inr ⟨fun q m m' hnumbers => not_le.mp fun hle => ?_, rfl⟩
    obtain ⟨p, hsome, -⟩ := hnumbers.parsepnum_eq hle
    rw [hp] at hsome
    cases hsome
  | some p =>
    obtain ⟨q, m', hnumbers, hle, hreq, -⟩ := parsepnum_numbers hp
    have hne : p.partnum ≠ 0 := fun hzero => h ⟨q, _, m', hnumbers, hle, Or.inl hzero⟩
    rw [if_neg hne] at hreq
    exact Or.inl ⟨q, p.partnum, by simpa [hreq] using hnumbers, by simpa [hreq] using hle⟩

/-- What the loop ends with: what `parsepnum` found at the last slash that passes, or the `req` that the first slash
    left, or the one it was given. -/
inductive Ends (str : Text) (high : Nat) (req : Int32) : Int32 × Option (Nat × Pnum) → Prop where
  | passed {s p} (pos : 0 < s) (le : s ≤ high) (slash : str[s]? = some '/') (found : parsepnum str s = some p)
    (nonneg : 0 ≤ p.req) (last : ∀ i, s < i → i ≤ high → str[i]? = some '/' → ¬∃ q m m', Passes str i q m m') :
    Ends str high req (p.req, some (s, p))
  | left {s v} (fails : ∀ i, 0 < i → i ≤ high → str[i]? = some '/' → ¬∃ q m m', Passes str i q m m') (pos : 0 < s)
    (le : s ≤ high) (slash : str[s]? = some '/') (first : ∀ i, 0 < i → i < s → str[i]? ≠ some '/') (left : LeavesReq str s v) :
    Ends str high req (v, none)
  | same (plain : ∀ i, 0 < i → i ≤ high → str[i]? ≠ some '/') : Ends str high req (req, none)

theorem findPnum_ends : ∀ (high : Nat) (req : Int32), Ends str high req (findPnum str high req)
  | 0, req => .same fun i hi hle => absurd hle (not_le.mpr hi)
  | high + 1, req => by
    unfold findPnum
    split
    · next hslash =>
      -- A slash that does not pass: what is below it decides, and where there is nothing it is the first slash.
      have hskip : ∀ v, v = ((parsepnum str (high + 1)).map (·.req)).getD (-1) →
          (¬∃ q m m', Passes str (high + 1) q m m') → Ends str (high + 1) req (findPnum str high v) := by
        intro v hv hnot
        have htop : ∀ i, i ≤ high + 1 → (i ≤ high → ¬∃ q m m', Passes str i q m m') → ¬∃ q m m', Passes str i q m m' :=
          fun i hi h => by
            rcases Nat.le_succ_iff.mp hi with hle | rfl
            · exact h hle
            · exact hnot
        have hends := findPnum_ends high v
        generalize findPnum str high v = r at hends ⊢
        cases hends with
        | passed pos le slash found nonneg last =>
          exact .passed pos (Nat.le_succ_of_le le) slash found nonneg fun i hi hle hs => htop i hle fun hle => last i hi hle hs
        | left fails pos le slash first left =>
          exact .left (fun i hi hle hs => htop i hle fun hle => fails i hi hle hs) pos (Nat.le_succ_of_le le) slash first left
        | same plain =>
          exact .left (fun i hi hle hs => htop i hle fun hle => absurd hs (plain i hi hle)) (Nat.succ_pos high) le_rfl hslash
            (fun i hi hlt => plain i hi (Nat.lt_succ_iff.mp hlt)) (hv ▸ leavesReq_of_not_passes hnot)
      split
      · next p hp =>
        split
        · next hreq => exact .passed (Nat.succ_pos high) le_rfl hslash hp hreq fun i hi hle => absurd hle (not_le.mpr hi)
        · next hneg =>
          refine hskip p.req (by rw [hp]; rfl) fun hpasses => ?_
          obtain ⟨p', hp', hreq⟩ := passes_iff.mp hpasses
          rw [hp] at hp'
          exact hneg (Option.some.inj hp' ▸ hreq)
      · next hp =>
        refine hskip (-1) (by rw [hp]; rfl) fun hpasses => ?_
        obtain ⟨p', hp', -⟩ := passes_iff.mp hpasses
        rw [hp] at hp'
        cases hp'
    · next hslash =>
      have htop : ∀ i, i ≤ high + 1 → str[i]? = some '/' → i ≤ high := fun i hi hs => by
        rcases Nat.le_succ_iff.mp hi with hle | rfl
        · exact hle
        · exact absurd hs hslash
      have hends := findPnum_ends high req
      generalize findPnum str high req = r at hends ⊢
      cases hends with
      | passed pos le slash found nonneg last =>
        exact .passed pos (Nat.le_succ_of_le le) slash found nonneg fun i hi hle hs => last i hi (htop i hle hs) hs
      | left fails pos le slash first left =>
        exact .left (fun i hi hle hs => fails i hi (htop i hle hs) hs) pos (Nat.le_succ_of_le le) slash first left
      | same plain => exact .same fun i hi hle hs => plain i hi (htop i hle hs) hs

/-- The loop of `set` gives a count of parts only with the part number of the last slash that has one. -/
theorem findPnum_of_pos (hge : 1 ≤ (findPnum str (str.length - 3) 0).1) :
    ∃ s pn, findPnum str (str.length - 3) 0 = (pn.req, some (s, pn)) ∧ LastPnum str s ∧ parsepnum str s = some pn := by
  have hends := @findPnum_ends str (str.length - 3) 0
  generalize findPnum str (str.length - 3) 0 = r at hge hends ⊢
  cases hends with
  | @passed s p pos le slash found nonneg last =>
    refine ⟨s, p, rfl, ⟨pos, le, slash, ⟨p, found, nonneg⟩, fun i hi hle hs pn hpn => ?_⟩, found⟩
    exact not_le.mp fun hreq => last i hi hle hs (passes_iff.mpr ⟨pn, hpn, hreq⟩)
  | @left s v fails pos le slash first left =>
    -- Numbers that do not pass leave a negative count.
    rcases left with ⟨q, m, hnumbers, hle⟩ | ⟨-, rfl⟩
    · exact absurd ⟨q, m, v, hnumbers, hle, Or.inr ((by decide : (0 : Int32) ≤ 1).trans hge)⟩ (fails s pos le slash)
    · exact absurd hge (by decide)
  | same => exact absurd hge (by decide)

end

/-! ### The header -/

section
variable {serverid anum bytes lines : UInt64} {group author mid refstr str : Text} {d : Int64}

/-- What `set` makes of a subject that it finds a count of parts in. -/
theorem filled_spec (hreq : 1 ≤ (NntpHeader.filled serverid group str author anum d bytes lines mid refstr).req) :
    ∃ s q b n after pn, LastPnum str s ∧ AtSlash str s q b n after pn ∧
      (NntpHeader.filled serverid group str author anum d bytes lines mid refstr).partnum = atoi (str.drop (q + 1)) ∧
      (NntpHeader.filled serverid group str author anum d bytes lines mid refstr).partoff = Int32.ofNat (q + 1) ∧
      (NntpHeader.filled serverid group str author anum d bytes lines mid refstr).subject =
        str.take (Int32.ofNat (q + 1)).toNatClampNeg ++ '*' :: str.drop s := by
  obtain ⟨r, hr⟩ : ∃ r, findPnum str (str.length - 3) 0 = r := ⟨_, rfl⟩
  unfold NntpHeader.filled at hreq ⊢
  rw [hr] at hreq ⊢
  have hge : 1 ≤ r.1 := by
    obtain ⟨req, none | ⟨s, p⟩⟩ := r
    · exact hreq
    · exact hreq
  obtain ⟨s, pn, rfl, hlast, hpn⟩ : ∃ s pn, r = (pn.req, some (s, pn)) ∧ LastPnum str s ∧ parsepnum str s = some pn :=
    hr ▸ findPnum_of_pos (hr ▸ hge)
  obtain ⟨q, b, n, after, hat⟩ := parsepnum_eq_some hpn
  have hne : pn.req ≠ 0 := fun h => absurd (show (1 : Int32) ≤ 0 from h ▸ hge) (by decide)
  refine ⟨s, q, b, n, after, pn, hlast, hat, hat.partnum, hat.partoff, ?_⟩
  dsimp only
  rw [if_neg hne, hat.partoff]

/-- The text with the character at an offset replaced by a numeral. -/
def putNumeral (subject : Text) (partoff : Nat) (numeral : Text) : Text :=
  subject.take partoff ++ numeral ++ subject.drop (partoff + 1)

/-- `numeral` is what the header's subject has `*` for: a decimal numeral of the part number, with which the subject is
    read back. -/
structure Replaced (str : Text) (h : NntpHeader) (numeral : Text) : Prop where
  place : ∃ before after, str = before ++ numeral ++ after ∧ h.subject = before ++ '*' :: after ∧
    h.partoff.toInt = before.length
  ne_nil : numeral ≠ []
  digits : ∀ c ∈ numeral, c.isDigit = true
  value : (Nat.ofDigitChars 10 numeral 0 : Int) = h.partnum.toInt
  recover : putNumeral h.subject h.partoff.toNatClampNeg numeral = str

/-- Before the last slash that has a part number stand digits alone, back to an opening bracket of the kind of the first
    closing bracket behind the slash. Their value is an `int`, and so is the index behind the opening bracket. -/
def NumeralAtSlash (str : Text) : Prop := ∃ (before : Text) (b : Brackets) (K n after : Text),
  str = before ++ b.opening :: K ++ '/' :: (n ++ b.closing :: after) ∧ (∀ c ∈ n, c ≠ ')' ∧ c ≠ ']') ∧
    LastPnum str (before ++ b.opening :: K).length ∧ K ≠ [] ∧ (∀ c ∈ K, c.isDigit = true) ∧
      Nat.ofDigitChars 10 K 0 < 2 ^ 31 ∧ before.length + 1 < 2 ^ 31

theorem toNatClampNeg_ofNat_le {m : Nat} : (Int32.ofNat m).toNatClampNeg ≤ m := by
  show (Int32.ofNat m).toInt.toNat ≤ m
  have hsize : (Int32.size : Int) = 2 ^ 32 := rfl
  rw [Int32.toInt_ofNat', Int.bmod_def, hsize]
  split <;> omega

/-- The first closing bracket of a text. -/
theorem closing_unique {b b' : Brackets} {n n' after after' : Text} (hn : ∀ c ∈ n, c ≠ ')' ∧ c ≠ ']')
    (hn' : ∀ c ∈ n', c ≠ ')' ∧ c ≠ ']') (h : n ++ b.closing :: after = n' ++ b'.closing :: after') : b = b' := by
  have hfirst : ∀ (b : Brackets) (n after : Text), (∀ c ∈ n, c ≠ ')' ∧ c ≠ ']') →
      (n ++ b.closing :: after).dropWhile (fun c => c ≠ ')' && c ≠ ']') = b.closing :: after := fun b n after hn => by
    rw [List.dropWhile_append_of_pos fun c hc => by simpa using hn c hc, List.dropWhile_cons_of_neg (by cases b <;> decide)]
  have hclosing := hfirst b n after hn
  rw [h, hfirst b' n' after' hn'] at hclosing
  have := (List.cons_eq_cons.mp hclosing).1
  cases b <;> cases b' <;> first | rfl | exact absurd this (by decide)

theorem AtSlash.bracket_lt {s q : Nat} {b : Brackets} {n after : Text} {pn : Pnum} (hat : AtSlash str s q b n after pn)
    (hslash : str[s]? = some '/') : q < s := by
  obtain ⟨-, hqs, hq, -⟩ := findBefore_eq_some hat.bracket
  refine hqs.lt_of_ne ?_
  rintro rfl
  exact Brackets.opening_spec.1 (Option.some.inj (hq.symm.trans hslash))

/-- What is replaced is a numeral only where one stands at the slash. -/
theorem Replaced.numeralAtSlash {numeral : Text}
    (hreq : 1 ≤ (NntpHeader.filled serverid group str author anum d bytes lines mid refstr).req)
    (h : Replaced str (NntpHeader.filled serverid group str author anum d bytes lines mid refstr) numeral) :
    NumeralAtSlash str := by
  obtain ⟨s, q, b, n, after, pn, hlast, hat, hpartnum, hpartoff, hsubject⟩ := filled_spec hreq
  obtain ⟨⟨pre, post, hstr, hsub, hoff⟩, hne, hdigits, hvalue, -⟩ := h
  obtain ⟨hqpos, -, hq, -⟩ := findBefore_eq_some hat.bracket
  have hqs := hat.bracket_lt hlast.slash
  obtain ⟨hs, hslash⟩ := List.getElem?_eq_some_iff.mp hlast.slash
  rw [hpartoff] at hoff
  obtain ⟨off, hoff'⟩ : ∃ off, (Int32.ofNat (q + 1)).toNatClampNeg = off := ⟨_, rfl⟩
  have hoffle : off ≤ q + 1 := hoff' ▸ toNatClampNeg_ofNat_le
  have hpre : pre.length = off := by
    rw [← hoff']
    show pre.length = (Int32.ofNat (q + 1)).toInt.toNat
    rw [hoff, Int.toNat_natCast]
  rw [hoff', hsub] at hsubject
  have htake : (str.take off).length = off := List.length_take_of_le (by omega)
  obtain ⟨hpre', hpost⟩ := List.append_inj hsubject (hpre.trans htake.symm)
  have hpost := (List.cons_eq_cons.mp hpost).2
  have hlen := congrArg List.length hstr
  rw [List.length_append, List.length_append, hpre, hpost, List.length_drop] at hlen
  -- An offset that has wrapped would put the bracket into the numeral.
  have hint : q + 1 < 2 ^ 31 := by
    by_contra hbig
    have hlt := Int32.toInt_lt (Int32.ofNat (q + 1))
    have hmem : b.opening ∈ numeral := by
      rw [hstr, List.append_assoc, List.getElem?_append_right (by omega), List.getElem?_append_left (by omega)] at hq
      exact List.mem_of_getElem? hq
    have := hdigits _ hmem
    rw [Brackets.opening_spec.2] at this
    cases this
  have hoffq : off = q + 1 := by
    rw [← hoff']
    exact Int32.toNatClampNeg_ofNat_of_lt hint
  have hvalue' : Nat.ofDigitChars 10 numeral 0 < 2 ^ 31 := by
    have := Int32.toInt_lt (NntpHeader.filled serverid group str author anum d bytes lines mid refstr).partnum
    omega
  obtain ⟨hq', hbracket⟩ := List.getElem?_eq_some_iff.mp hq
  have hbefore : pre = str.take q ++ [b.opening] := by
    rw [hpre', hoffq, List.take_succ_eq_append_getElem hq', hbracket]
  have hafter : post = '/' :: (n ++ b.closing :: after) := by
    rw [hpost, List.drop_eq_getElem_cons hs, hslash, hat.behind]
  have hlenq : (str.take q).length = q := List.length_take_of_le hq'.le
  refine ⟨str.take q, b, numeral, n, after, ?_, hat.open_, ?_, hne, hdigits, hvalue', by rwa [hlenq]⟩
  · rw [← hafter]
    refine hstr.trans ?_
    rw [hbefore]
    simp
  · have heq : (str.take q ++ b.opening :: numeral).length = s := by
      rw [List.length_append, List.length_cons, hlenq]
      omega
    exact heq ▸ hlast

/-- Where a numeral stands at the slash it is what is replaced. -/
theorem NumeralAtSlash.replaced (hreq : 1 ≤ (NntpHeader.filled serverid group str author anum d bytes lines mid refstr).req)
    (h : NumeralAtSlash str) :
    ∃ numeral, Replaced str (NntpHeader.filled serverid group str author anum d bytes lines mid refstr) numeral := by
  obtain ⟨s, q, b', n', after', pn, hlast, hat, hpartnum, hpartoff, hsubject⟩ := filled_spec hreq
  obtain ⟨before, b, K, n, after, hstr, hopen, hlast', hne, hdigits, hvalue, hint⟩ := h
  have hs := hlast.unique hlast'
  have hqs := hat.bracket_lt hlast.slash
  obtain ⟨-, -, hq, hnone⟩ := findBefore_eq_some hat.bracket
  have hslen : (before ++ b.opening :: K).length = before.length + 1 + K.length := by
    rw [List.length_append, List.length_cons]
    omega
  -- The brackets are the same, since the closing one is the first behind the slash.
  obtain rfl : b' = b := by
    have hdrop : str.drop (s + 1) = n ++ b.closing :: after := by
      rw [hs, hstr, List.drop_append, List.drop_eq_nil_of_le (Nat.le_succ _), Nat.add_sub_cancel_left]
      rfl
    exact closing_unique hat.open_ hopen (hat.behind.symm.trans hdrop)
  -- Behind the bracket there are digits only, so that it is the one that is found.
  obtain rfl : q = before.length := by
    rcases lt_trichotomy q before.length with hlt | heq | hlt
    · have hbracket : str[before.length]? = some b'.opening := by
        rw [hstr, List.append_assoc, List.getElem?_append_right le_rfl, Nat.sub_self]
        rfl
      exact absurd hbracket (hnone _ hlt (by omega))
    · exact heq
    · rw [hstr, List.getElem?_append_left (by omega)] at hq
      refine absurd hq (getElem?_ne_of_not_mem hlt fun hmem => ?_)
      have := hdigits _ hmem
      rw [Brackets.opening_spec.2] at this
      cases this
  have hsplit : str.drop (before.length + 1) = K ++ '/' :: (n ++ b'.closing :: after) := by
    rw [hstr, List.append_assoc, List.drop_append, List.drop_eq_nil_of_le (Nat.le_succ _), Nat.add_sub_cancel_left]
    rfl
  have hoff : (Int32.ofNat (before.length + 1)).toNatClampNeg = before.length + 1 := Int32.toNatClampNeg_ofNat_of_lt hint
  have htake : str.take (before.length + 1) = before ++ [b'.opening] := by
    rw [hstr, List.append_assoc, List.take_append, List.take_of_length_le (Nat.le_succ _), Nat.add_sub_cancel_left]
    rfl
  have hdrops : str.drop s = '/' :: (n ++ b'.closing :: after) := by
    rw [hs, hstr, List.drop_left]
  rw [hoff, htake, hdrops] at hsubject
  refine ⟨K, ⟨before ++ [b'.opening], '/' :: (n ++ b'.closing :: after), by simp [hstr], hsubject, ?_⟩, hne, hdigits, ?_, ?_⟩
  · rw [hpartoff, Int32.toInt_ofNat_of_lt hint, List.length_append]
    rfl
  · rw [hpartnum, hsplit, atoi_digits hne hdigits (by rfl) hvalue]
  · have hlen : (before ++ [b'.opening]).length = before.length + 1 := by simp
    rw [putNumeral, hsubject, hpartoff, hoff, ← hlen, List.take_left, List.drop_append, List.drop_eq_nil_of_le (Nat.le_succ _),
      Nat.add_sub_cancel_left]
    simp [hstr]

/-- Both subjects say the same but for leading zeros of a number. -/
def SpelledAlike (str str' : Text) : Prop := ∃ before K K' after, str = before ++ K ++ after ∧ str' = before ++ K' ++ after ∧
  (∀ c ∈ K ++ K', c.isDigit = true) ∧ K.dropWhile (· = '0') = K'.dropWhile (· = '0')

theorem SpelledAlike.eq_of_length {str' : Text} (h : SpelledAlike str str') (hlen : str.length = str'.length) : str = str' := by
  obtain ⟨before, K, K', after, rfl, rfl, -, hsame⟩ := h
  have hzeros : ∀ K : Text, K = List.replicate (K.takeWhile (· = '0')).length '0' ++ K.dropWhile (· = '0') := fun K => by
    rw [← List.eq_replicate_of_mem fun c hc => by simpa using List.mem_takeWhile_imp hc, List.takeWhile_append_dropWhile]
  have hK := hzeros K
  have hK' := hzeros K'
  have hlenK := congrArg List.length hK
  have hlenK' := congrArg List.length hK'
  rw [List.length_append, List.length_replicate] at hlenK hlenK'
  rw [← hsame] at hK' hlenK'
  simp only [List.length_append] at hlen
  rw [hK, hK', show (K.takeWhile (· = '0')).length = (K'.takeWhile (· = '0')).length by omega]

/-- Subjects that both have a numeral replaced, and are the same afterwards with the same number, are spelled alike. -/
theorem Replaced.spelledAlike {h h' : NntpHeader} {str' numeral numeral' : Text} (hr : Replaced str h numeral)
    (hr' : Replaced str' h' numeral') (hsubject : h.subject = h'.subject) (hoff : h.partoff = h'.partoff)
    (hnum : h.partnum = h'.partnum) : SpelledAlike str str' := by
  obtain ⟨before, after, hstr, hsub, hlen⟩ := hr.place
  obtain ⟨before', after', hstr', hsub', hlen'⟩ := hr'.place
  rw [hoff] at hlen
  obtain ⟨rfl, hafter⟩ := List.append_inj (hsub.symm.trans (hsubject.trans hsub')) (by omega)
  obtain rfl := (List.cons_eq_cons.mp hafter).2
  have hvalue : Nat.ofDigitChars 10 numeral 0 = Nat.ofDigitChars 10 numeral' 0 := by
    have := hr.value
    have := hr'.value
    rw [hnum] at *
    omega
  refine ⟨before, numeral, numeral', after, hstr, hstr', fun c hc => ?_, ?_⟩
  · rcases List.mem_append.mp hc with hc | hc
    · exact hr.digits c hc
    · exact hr'.digits c hc
  · rw [dropWhile_zero hr.digits, dropWhile_zero hr'.digits, hvalue]

end

/-- What `set` replaces is a numeral of the part number, with which the subject is read back, just when a numeral stands
    at the slash; and two such subjects are the same afterwards, with the same offset and number, only when they are
    spelled alike. -/
theorem replaced_numeral_iff {str : Text} {serverid anum bytes lines : UInt64} {group author mid refstr : Text} {d : Int64}
    {h : NntpHeader} (hset : NntpHeader.set serverid group str author anum d bytes lines mid refstr = some h)
    (hreq : 1 ≤ h.req) :
    ((∃ numeral, Replaced str h numeral) ↔ NumeralAtSlash str) ∧
    ∀ (str' : Text) (serverid' anum' bytes' lines' : UInt64) (group' author' mid' refstr' : Text) (d' : Int64)
      (h' : NntpHeader), NumeralAtSlash str → NumeralAtSlash str' →
      NntpHeader.set serverid' group' str' author' anum' d' bytes' lines' mid' refstr' = some h' → 1 ≤ h'.req →
      h.subject = h'.subject → h.partoff = h'.partoff → h.partnum = h'.partnum → SpelledAlike str str' := by
  obtain ⟨-, rfl⟩ := NntpHeader.set_eq_some_iff.mp hset
  constructor
  · constructor
    · rintro ⟨numeral, hr⟩
      exact hr.numeralAtSlash hreq
    · intro h
      exact h.replaced hreq
  · intro str' serverid' anum' bytes' lines' group' author' mid' refstr' d' h' hat hat' hset' hreq'
    obtain ⟨-, rfl⟩ := NntpHeader.set_eq_some_iff.mp hset'
    obtain ⟨numeral, hr⟩ := hat.replaced hreq
    obtain ⟨numeral', hr'⟩ := hat'.replaced hreq'
    exact hr.spelledAlike hr'

/-- The header of a post with this subject, for the examples that follow. -/
def postHeader (str : Text) : Option NntpHeader := NntpHeader.set 1 [] str [] 1 0 0 0 [] []

/-- With another slash before it the text up to the slash that counts is replaced, and two posts collide. -/
theorem replaced_not_numeral :
    ∃ h, postHeader "f (1/2/3)".toList = some h ∧ 1 ≤ h.req ∧ (∀ numeral, ¬Replaced "f (1/2/3)".toList h numeral) ∧
      postHeader "f (1/9/3)".toList = some h ∧ ¬SpelledAlike "f (1/2/3)".toList "f (1/9/3)".toList := by
  refine ⟨_, NntpHeader.set_eq_some_iff.mpr ⟨by decide, rfl⟩, by decide, fun numeral hr => ?_, by decide +kernel,
    fun halike => ?_⟩
  · obtain ⟨h, hh⟩ : ∃ h, NntpHeader.filled 1 [] "f (1/2/3)".toList [] 1 0 0 0 [] [] = h := ⟨_, rfl⟩
    have hsubject : h.subject = "f (*/3)".toList := hh ▸ by decide
    have hoff : h.partoff.toNatClampNeg = 3 := hh ▸ by decide
    rw [hh] at hr
    have hrecover := hr.recover
    rw [hsubject, hoff] at hrecover
    have hnumeral : "f (".toList ++ numeral ++ "/3)".toList = "f (".toList ++ "1/2".toList ++ "/3)".toList := hrecover
    have hnumeral := List.append_cancel_left (List.append_cancel_right hnumeral)
    exact absurd (hr.digits '/' (hnumeral ▸ by decide)) (by decide)
  · exact absurd (halike.eq_of_length (by decide)) (by decide)

theorem lastPnum_two : LastPnum "f (02/15)".toList 5 where
  pos := by decide
  le := by decide
  slash := by decide
  found := ⟨⟨15, 2, 3, 8⟩, by decide, by decide⟩
  last i hi hle hslash := by
    obtain rfl : i = 6 := le_antisymm hle hi
    exact absurd hslash (by decide)

theorem replaced_numeral_two :
    ∃ h numeral, postHeader "f (02/15)".toList = some h ∧ Replaced "f (02/15)".toList h numeral := by
  have hset : postHeader "f (02/15)".toList = some (.filled 1 [] "f (02/15)".toList [] 1 0 0 0 [] []) :=
    NntpHeader.set_eq_some_iff.mpr ⟨by decide, rfl⟩
  obtain ⟨numeral, hr⟩ := (@replaced_numeral_iff "f (02/15)".toList 1 1 0 0 [] [] [] [] 0 _ hset (by decide)).1.mpr
    ⟨"f ".toList, .round, "02".toList, "15".toList, [], by decide, by simp, lastPnum_two, by decide, by simp,
      by decide +kernel, by decide⟩
  exact ⟨_, numeral, hset, hr⟩

end Nget

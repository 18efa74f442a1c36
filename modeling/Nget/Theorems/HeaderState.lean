import Nget.Theorems.PartNumeral

/-! The state that `set` leaves a header in. The two numbers about a slash are read from the subject as they stand there,
    and the last slash at which they pass makes the part number. A first number that is negative passes too, and where
    none passes the `req` that is left is that of the first slash. -/

namespace Nget
open CString

variable {str : Text} {s q : Nat} {m m' : Int32}

/-! ### The slashes -/

theorem NumbersAt.unique {r : Nat} {k k' : Int32} (h : NumbersAt str s q m m') (h' : NumbersAt str s r k k') :
    q = r ∧ m = k ∧ m' = k' := by
  obtain ⟨b, n, after, hdrop, hopen, hq, hm, hm'⟩ := h
  obtain ⟨b', n', after', hdrop', hopen', hr, hk, hk'⟩ := h'
  obtain rfl := closing_unique hopen hopen' (hdrop.symm.trans hdrop')
  obtain rfl := Option.some.inj (hq.symm.trans hr)
  exact ⟨rfl, Option.some.inj (hm.symm.trans hk), Option.some.inj (hm'.symm.trans hk')⟩

/-- A slash that `set` looks at. -/
def SlashOf (str : Text) (s : Nat) : Prop := 0 < s ∧ s ≤ str.length - 3 ∧ str[s]? = some '/'

theorem LeavesReq.unique {v w : Int32} (h : LeavesReq str s v) (h' : LeavesReq str s w) : v = w := by
  rcases h with ⟨q, m, hnumbers, hle⟩ | ⟨hnone, rfl⟩ <;> rcases h' with ⟨r, k, hnumbers', hle'⟩ | ⟨hnone', rfl⟩
  · exact (hnumbers.unique hnumbers').2.2
  · exact absurd (hnone' q m v hnumbers) (not_lt.mpr hle)
  · exact absurd (hnone r k w hnumbers') (not_lt.mpr hle')
  · rfl

/-! ### The header -/

/-- A part of a multipart post. -/
def NntpHeader.IsPart (h : NntpHeader) : Prop := 1 ≤ h.req ∧ 1 ≤ h.partnum ∧ h.partnum ≤ h.req

/-- A file with the number zero, beside the parts of a multipart post. -/
def NntpHeader.IsZeroFile (str : Text) (h : NntpHeader) : Prop :=
  h.req = 0 ∧ h.partnum = 0 ∧ h.subject = str ∧ 0 ≤ h.partoff.toInt ∧ h.partoff.toInt < str.length

/-- Not a part, with this `req`. -/
def NntpHeader.IsNoPart (v : Int32) (str : Text) (h : NntpHeader) : Prop :=
  h.req = v ∧ h.partnum = -1 ∧ h.partoff = -1 ∧ h.tailoff = -1 ∧ h.subject = str

/-- The header is in exactly one of the three states. -/
def NntpHeader.Classified (v : Int32) (str : Text) (h : NntpHeader) : Prop :=
  (h.IsPart ∧ ¬h.IsZeroFile str ∧ ¬h.IsNoPart v str) ∨ (¬h.IsPart ∧ h.IsZeroFile str ∧ ¬h.IsNoPart v str) ∨
    (¬h.IsPart ∧ ¬h.IsZeroFile str ∧ h.IsNoPart v str)

theorem NntpHeader.classified_iff {v : Int32} {h : NntpHeader} :
    h.Classified v str ↔ h.IsPart ∨ h.IsZeroFile str ∨ h.IsNoPart v str := by
  have hpz : h.IsPart → ¬h.IsZeroFile str := fun hp hz => absurd (hz.1 ▸ hp.1) (by decide)
  have hpn : h.IsPart → ¬h.IsNoPart v str := fun hp hn => absurd (hn.2.1 ▸ hp.2.1) (by decide)
  have hzn : h.IsZeroFile str → ¬h.IsNoPart v str := fun hz hn => absurd (hz.2.1.symm.trans hn.2.1) (by decide)
  unfold Classified
  tauto

/-- The index of the first closing bracket behind a slash. -/
def closingIndex (str : Text) (s : Nat) : Nat := s + 1 + ((str.drop (s + 1)).takeWhile fun c => c ≠ ')' && c ≠ ']').length

/-- The subject says what `v` says. At the last slash that passes the first number is not negative, and the index behind
    the bracket is not negative as an `int`; or no slash passes, and `v` is what the first slash leaves, or zero where
    there is none. In a subject so long that both indices wrap to -1, the numbers -1 and 0 pass for none. -/
inductive Regular (v : Int32) (str : Text) : Prop where
  | number {s q : Nat} {m m' : Int32} (slash : SlashOf str s) (passes : Passes str s q m m')
    (last : ∀ i, s < i → SlashOf str i → ¬∃ q m m', Passes str i q m m') (nonneg : 0 ≤ m)
    (offset : (q + 1) % 2 ^ 32 < 2 ^ 31)
  | first {s : Nat} (slash : SlashOf str s) (first : ∀ i < s, ¬SlashOf str i)
    (fails : ∀ i, SlashOf str i → ¬∃ q m m', Passes str i q m m') (leaves : LeavesReq str s v)
  | plain (none : ∀ i, ¬SlashOf str i) (zero : v = 0)
  | wrapped {s q : Nat} (slash : SlashOf str s) (passes : Passes str s q (-1) 0)
    (last : ∀ i, s < i → SlashOf str i → ¬∃ q m m', Passes str i q m m') (offset : Int32.ofNat (q + 1) = -1)
    (tail : Int32.ofNat (closingIndex str s) = -1) (zero : v = 0)

theorem parsepnum_tailoff {p : Pnum} (h : parsepnum str s = some p) : p.tailoff = Int32.ofNat (closingIndex str s) := by
  unfold parsepnum at h
  dsimp only at h
  split at h
  · cases h
  · split at h
    · cases h
    · split at h
      · split at h
        · cases h
        · cases h
          rfl
      · cases h

theorem toInt_ofNat_nonneg_iff {n : Nat} : 0 ≤ (Int32.ofNat n).toInt ↔ n % 2 ^ 32 < 2 ^ 31 := by
  have hsize : (Int32.size : Int) = 2 ^ 32 := rfl
  rw [Int32.toInt_ofNat', Int.bmod_def, hsize]
  split <;> omega

theorem toInt_ofNat_le {n : Nat} : (Int32.ofNat n).toInt ≤ n := by
  have hsize : (Int32.size : Int) = 2 ^ 32 := rfl
  rw [Int32.toInt_ofNat', Int.bmod_def, hsize]
  split <;> omega

/-- The last slash that passes, and the numbers about it. -/
theorem passes_unique {r q' : Nat} {k k' : Int32} (hs : SlashOf str s) (hr : SlashOf str r) (hp : Passes str s q m m')
    (hp' : Passes str r q' k k') (hlast : ∀ i, s < i → SlashOf str i → ¬∃ q m m', Passes str i q m m')
    (hlast' : ∀ i, r < i → SlashOf str i → ¬∃ q m m', Passes str i q m m') : s = r ∧ q = q' ∧ m = k ∧ m' = k' := by
  rcases lt_trichotomy s r with hlt | rfl | hlt
  · exact absurd ⟨q', k, k', hp'⟩ (hlast r hlt hr)
  · exact ⟨rfl, hp.1.unique hp'.1⟩
  · exact absurd ⟨q, m, m', hp⟩ (hlast' s hlt hs)

/-- The header of a subject in which a slash passes, and whose rest can be put behind it. -/
theorem classified_of_passes {v : Int32} {h : NntpHeader} (hslash : SlashOf str s) (hpasses : Passes str s q m m')
    (hlast : ∀ i, s < i → SlashOf str i → ¬∃ q m m', Passes str i q m m') (hreq : h.req = if m = 0 then 0 else m')
    (hpartnum : h.partnum = m) (hpartoff : h.partoff = Int32.ofNat (q + 1))
    (htail : h.tailoff = Int32.ofNat (closingIndex str s))
    (hsubject : h.subject = if h.req = 0 then str else str.take h.partoff.toNatClampNeg ++ '*' :: str.drop s) :
    (h.IsPart ∨ h.IsZeroFile str ∨ h.IsNoPart v str) ∧ ¬(h.req ≠ 0 ∧ h.partoff < 0) ↔ Regular v str := by
  obtain ⟨hs, hget⟩ := List.getElem?_eq_some_iff.mp hslash.2.2
  have hqs : 0 < q ∧ q < s := by
    obtain ⟨b, n, after, -, -, hbracket, -⟩ := hpasses.1
    obtain ⟨hpos, hle, hq, -⟩ := findBefore_eq_some hbracket
    refine ⟨hpos, hle.lt_of_ne ?_⟩
    rintro rfl
    exact Brackets.opening_spec.1 (Option.some.inj (hq.symm.trans hslash.2.2))
  have hoffset : ¬h.partoff < 0 ↔ (q + 1) % 2 ^ 32 < 2 ^ 31 := by
    rw [hpartoff, Int32.lt_iff_toInt_lt, not_lt]
    exact toInt_ofNat_nonneg_iff
  constructor
  · rintro ⟨⟨hone, hnum, -⟩ | ⟨-, hzero, -, hoff, -⟩ | ⟨hv, hneg, hoff, htailoff, hsub⟩, hput⟩
    · have hreq' : h.req ≠ 0 := fun hzero => absurd (hzero ▸ hone) (by decide)
      rw [hpartnum] at hnum
      exact .number hslash hpasses hlast (le_trans (by decide) hnum) (hoffset.mp fun hlt => hput ⟨hreq', hlt⟩)
    · rw [hpartnum] at hzero
      rw [hpartoff] at hoff
      exact .number hslash hpasses hlast hzero.ge (toInt_ofNat_nonneg_iff.mp hoff)
    · rw [hpartnum] at hneg
      subst hneg
      rw [if_neg (by decide)] at hreq
      rw [hpartoff] at hoff
      rw [htail] at htailoff
      by_cases hzero : m' = 0
      · subst hzero
        exact .wrapped hslash hpasses hlast hoff htailoff (hv.symm.trans hreq)
      · -- With a count of parts there is a text to be put behind -1 characters.
        refine absurd ⟨hreq ▸ hzero, ?_⟩ hput
        rw [hpartoff, hoff]
        decide
  · intro hregular
    cases hregular with
    | @number _ _ k k' hslash' hpasses' hlast' nonneg offset =>
      obtain ⟨rfl, rfl, rfl, rfl⟩ := passes_unique hslash hslash' hpasses hpasses' hlast hlast'
      refine ⟨?_, fun hput => hoffset.mpr offset hput.2⟩
      by_cases hzero : m = 0
      · rw [if_pos hzero] at hreq
        rw [if_pos hreq] at hsubject
        refine Or.inr (Or.inl ⟨hreq, hpartnum.trans hzero, hsubject, ?_, ?_⟩)
        · rw [hpartoff]
          exact toInt_ofNat_nonneg_iff.mpr offset
        · rw [hpartoff]
          exact lt_of_le_of_lt toInt_ofNat_le (by omega)
      · rw [if_neg hzero] at hreq
        have hone : 1 ≤ m := by grind
        refine Or.inl ⟨?_, ?_, ?_⟩
        · rw [hreq]
          exact hone.trans hpasses.2.1
        · rw [hpartnum]
          exact hone
        · rw [hpartnum, hreq]
          exact hpasses.2.1
    | first hslash' hfirst fails leaves => exact absurd ⟨q, m, m', hpasses⟩ (fails s hslash)
    | plain none zero => exact absurd hslash (none s)
    | wrapped hslash' hpasses' hlast' offset tail zero =>
      obtain ⟨rfl, rfl, rfl, rfl⟩ := passes_unique hslash hslash' hpasses hpasses' hlast hlast'
      rw [if_neg (by decide)] at hreq
      rw [if_pos hreq] at hsubject
      exact ⟨Or.inr (Or.inr ⟨hreq.trans zero.symm, hpartnum, hpartoff.trans offset, htail.trans tail, hsubject⟩),
        fun hput => hput.1 hreq⟩

/-- What is not a part with one `req` is in one of the three states where this is the `req`. -/
theorem NntpHeader.IsNoPart.classified_iff {v w : Int32} {h : NntpHeader} (hno : h.IsNoPart w str) :
    h.IsPart ∨ h.IsZeroFile str ∨ h.IsNoPart v str ↔ w = v := by
  obtain ⟨hreq, hneg, hpartoff, htailoff, hsubject⟩ := hno
  constructor
  · rintro (⟨-, hone, -⟩ | ⟨-, hzero, -⟩ | ⟨hv, -⟩)
    · exact absurd (hneg ▸ hone) (by decide)
    · exact absurd (hneg.symm.trans hzero) (by decide)
    · exact hreq.symm.trans hv
  · rintro rfl
    exact Or.inr (Or.inr ⟨hreq, hneg, hpartoff, htailoff, hsubject⟩)

/-- A subject in which no slash passes says what the first slash leaves. -/
theorem regular_of_left {v w : Int32} (hslash : SlashOf str s) (hfirst : ∀ i < s, ¬SlashOf str i)
    (hnone : ∀ i, SlashOf str i → ¬∃ q m m', Passes str i q m m') (hleft : LeavesReq str s w) : w = v ↔ Regular v str := by
  constructor
  · rintro rfl
    exact .first hslash hfirst hnone hleft
  · intro hregular
    cases hregular with
    | number hslash' hpasses => exact absurd ⟨_, _, _, hpasses⟩ (hnone _ hslash')
    | @first t hslash' hfirst' _ leaves =>
      obtain rfl : s = t := by
        rcases lt_trichotomy s t with hlt | heq | hlt
        · exact absurd hslash (hfirst' s hlt)
        · exact heq
        · exact absurd hslash' (hfirst t hlt)
      exact hleft.unique leaves
    | plain none => exact absurd hslash (none s)
    | wrapped hslash' hpasses => exact absurd ⟨_, _, _, hpasses⟩ (hnone _ hslash')

/-- A subject without a slash says zero. -/
theorem regular_of_plain {v : Int32} (hnone : ∀ i, ¬SlashOf str i) : 0 = v ↔ Regular v str := by
  constructor
  · rintro rfl
    exact .plain hnone rfl
  · intro hregular
    cases hregular with
    | number hslash => exact absurd hslash (hnone _)
    | first hslash => exact absurd hslash (hnone _)
    | plain _ zero => exact zero.symm
    | wrapped hslash => exact absurd hslash (hnone _)

/-- `set` ends, with a header that is a part, a zero-file or none, with this `req`, exactly where the subject is
    regular. -/
theorem set_classified_iff (v : Int32) (serverid : UInt64) (group str author : Text) (anum : UInt64) (d : Int64)
    (bytes lines : UInt64) (mid refstr : Text) :
    (∃ h, NntpHeader.set serverid group str author anum d bytes lines mid refstr = some h ∧ h.Classified v str) ↔
      Regular v str := by
  have hset : (∃ h, NntpHeader.set serverid group str author anum d bytes lines mid refstr = some h ∧ h.Classified v str) ↔
      appendThrows str = false ∧
        (NntpHeader.filled serverid group str author anum d bytes lines mid refstr).Classified v str := by
    simp only [NntpHeader.set_eq_some_iff]
    constructor
    · rintro ⟨_, ⟨hputs, rfl⟩, hclass⟩
      exact ⟨hputs, hclass⟩
    · rintro ⟨hputs, hclass⟩
      exact ⟨_, ⟨hputs, rfl⟩, hclass⟩
  rw [hset, NntpHeader.classified_iff]
  have hends := @findPnum_ends str (str.length - 3) 0
  unfold NntpHeader.filled appendThrows
  dsimp only
  generalize findPnum str (str.length - 3) 0 = r at hends ⊢
  cases hends with
  | @passed s p pos le slash found nonneg last =>
    obtain ⟨q, m', hnumbers, hle, hreq, hoff⟩ := parsepnum_numbers found
    have hpasses : Passes str s q p.partnum m' := by
      refine ⟨hnumbers, hle, ?_⟩
      rw [hreq] at nonneg
      split at nonneg
      · next hzero => exact Or.inl hzero
      · exact Or.inr nonneg
    have hput : (p.req ≠ 0 && p.partoff < 0) = false ↔ ¬(p.req ≠ 0 ∧ p.partoff < 0) := by simp
    rw [hput, and_comm]
    exact classified_of_passes ⟨pos, le, slash⟩ hpasses (fun i hi hslash => last i hi hslash.2.1 hslash.2.2) hreq rfl hoff
      (parsepnum_tailoff found) rfl
  | @left s w fails pos le slash first left =>
    dsimp only
    rw [and_iff_right rfl, NntpHeader.IsNoPart.classified_iff ⟨rfl, rfl, rfl, rfl, rfl⟩]
    exact regular_of_left ⟨pos, le, slash⟩ (fun i hi hslash => first i hslash.1 hi hslash.2.2)
      (fun i hi => fails i hi.1 hi.2.1 hi.2.2) left
  | same plain =>
    dsimp only
    rw [and_iff_right rfl, NntpHeader.IsNoPart.classified_iff ⟨rfl, rfl, rfl, rfl, rfl⟩]
    exact regular_of_plain fun i hi => plain i hi.1 hi.2.1 hi.2.2

/-- The offset of a subject that is shorter than 2^31 is within it, so `set` ends there. -/
theorem NntpHeader.set_of_length_lt {serverid anum bytes lines : UInt64} {group author mid refstr : Text} {d : Int64}
    (hlen : str.length < 2 ^ 31) : NntpHeader.set serverid group str author anum d bytes lines mid refstr =
      some (.filled serverid group str author anum d bytes lines mid refstr) := by
  refine NntpHeader.set_eq_some_iff.mpr ⟨?_, rfl⟩
  have hends := @findPnum_ends str (str.length - 3) 0
  unfold appendThrows
  generalize findPnum str (str.length - 3) 0 = r at hends ⊢
  cases hends with
  | @passed s p pos le slash found nonneg last =>
    obtain ⟨q, m', ⟨b, n, after, -, -, hbracket, -⟩, -, -, hoff⟩ := parsepnum_numbers found
    obtain ⟨-, hle, -⟩ := findBefore_eq_some hbracket
    have hpart : ¬p.partoff < 0 := by
      rw [hoff, Int32.lt_iff_toInt_lt, not_lt]
      exact toInt_ofNat_nonneg_iff.mpr (by omega)
    dsimp only
    rw [decide_eq_false hpart, Bool.and_false]
  | left => rfl
  | same => rfl

/-- The numbers -5 and 3 pass for a part, so that no `req` for what is not one makes the header one of the three. -/
theorem set_classified_fails :
    ¬∃ v : Int32, v ≤ 0 ∧ ∀ str : Text, ∃ h, postHeader str = some h ∧ h.Classified v str := by
  rintro ⟨v, hv, h⟩
  obtain ⟨h, hset, hclass⟩ := h "f (-5/3)".toList
  obtain ⟨-, rfl⟩ := NntpHeader.set_eq_some_iff.mp hset
  have hpartnum : (NntpHeader.filled 1 [] "f (-5/3)".toList [] 1 0 0 0 [] []).partnum = -5 := by decide
  rcases NntpHeader.classified_iff.mp hclass with ⟨-, hone, -⟩ | ⟨-, hzero, -⟩ | ⟨-, hneg, -⟩
  · rw [hpartnum] at hone
    exact absurd hone (by decide)
  · rw [hpartnum] at hzero
    exact absurd hzero (by decide)
  · rw [hpartnum] at hneg
    exact absurd hneg (by decide)

end Nget

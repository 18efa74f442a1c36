import Nget.Crc
import Nget.Lib.Rolling

/-! The sliding CRC is the CRC of the moved window, and a block that is damaged in four bytes in a row has another CRC. -/

namespace Nget
open Rolling

/-- The CRC of a block, as the callers of `CRCUpdateBlock` compute it. -/
def crcOf (block : List UInt8) : UInt32 := ~~~0 ^^^ crcUpdateBlock (~~~0) block

/-! ### The table -/

theorem and_one (x : UInt32) : x &&& 1 = 0 ∨ x &&& 1 = 1 := by
  have h : (x &&& 1).toNat = x.toNat % 2 := by
    rw [UInt32.toNat_and]
    exact Nat.and_one_is_mod _
  rcases Nat.mod_two_eq_zero_or_one x.toNat with hx | hx
  · exact Or.inl (UInt32.toNat_inj.mp (h.trans hx))
  · exact Or.inr (UInt32.toNat_inj.mp (h.trans hx))

theorem and_low24 (crc : UInt32) : (crc >>> 8) &&& (0x00ffffff : UInt32) = crc >>> 8 := by
  have hlow : (0x00ffffff : UInt32).toNat = 2 ^ 24 - 1 := rfl
  have hlt := crc.toNat_lt
  refine UInt32.toNat_inj.mp ?_
  rw [UInt32.toNat_and, hlow, Nat.and_two_pow_sub_one_eq_mod, UInt32.toNat_shiftRight, Nat.shiftRight_eq_div_pow]
  refine Nat.mod_eq_of_lt ?_
  change crc.toNat / 2 ^ 8 < 2 ^ 24
  omega

theorem xor_cancel (a b c : UInt32) : (a ^^^ c) ^^^ (b ^^^ c) = a ^^^ b := by
  rw [UInt32.xor_comm b c, UInt32.xor_assoc, ← UInt32.xor_assoc c c b, UInt32.xor_self, UInt32.zero_xor]

theorem xor_and_one (a b : UInt32) : (a ^^^ b) &&& 1 = (a &&& 1) ^^^ (b &&& 1) := by
  rw [← UInt32.toBitVec_inj]
  ext i
  simp [Bool.and_xor_distrib_right]

theorem crcBit_xor (polynomial a b : UInt32) : crcBit polynomial (a ^^^ b) = crcBit polynomial a ^^^ crcBit polynomial b := by
  unfold crcBit
  rw [xor_and_one, UInt32.shiftRight_xor]
  rcases and_one a with ha | ha <;> rcases and_one b with hb | hb <;> simp only [ha, hb]
  · simp
  · simp [UInt32.xor_assoc]
  · simp
    ac_rfl
  · simp [xor_cancel]

theorem crcBit_iterate_xor (polynomial : UInt32) : ∀ (n : Nat) (a b : UInt32),
    (crcBit polynomial)^[n] (a ^^^ b) = (crcBit polynomial)^[n] a ^^^ (crcBit polynomial)^[n] b
  | 0, _, _ => rfl
  | n + 1, a, b => by
    rw [Function.iterate_succ_apply, crcBit_xor, crcBit_iterate_xor polynomial n]
    rfl

theorem generateCRC32Table_xor (polynomial : UInt32) (a b : UInt8) :
    generateCRC32Table polynomial (a ^^^ b) = generateCRC32Table polynomial a ^^^ generateCRC32Table polynomial b := by
  unfold generateCRC32Table
  rw [UInt8.toUInt32_xor, crcBit_iterate_xor]

/-! ### A byte -/

theorem crcUpdateChar_eq (crc : UInt32) (ch : UInt8) :
    crcUpdateChar crc ch = (crc >>> 8) ^^^ ccitttable (crc.toUInt8 ^^^ ch) := by
  unfold crcUpdateChar
  rw [and_low24]

theorem crcUpdateZero_eq (crc : UInt32) : crcUpdateZero crc = crcUpdateChar crc 0 := by
  unfold crcUpdateZero crcUpdateChar
  rw [UInt8.xor_zero]

theorem crcUpdateChar_xor (s t : UInt32) (a b : UInt8) :
    crcUpdateChar (s ^^^ t) (a ^^^ b) = crcUpdateChar s a ^^^ crcUpdateChar t b := by
  have hbyte : s.toUInt8 ^^^ t.toUInt8 ^^^ (a ^^^ b) = (s.toUInt8 ^^^ a) ^^^ (t.toUInt8 ^^^ b) := by ac_rfl
  simp only [crcUpdateChar_eq, UInt32.toUInt8_xor, UInt32.shiftRight_xor, hbyte, ccitttable, generateCRC32Table_xor]
  ac_rfl

theorem crcUpdateChar_additive : @Additive (Parity UInt32) (Parity UInt8) _ _ crcUpdateChar := crcUpdateChar_xor

/-! ### The window -/

theorem foldl_zeros (s : UInt32) : ∀ n, (List.replicate n (0 : UInt8)).foldl crcUpdateChar s = crcUpdateZero^[n] s
  | 0 => rfl
  | n + 1 => by
    rw [List.replicate_succ, List.foldl_cons, foldl_zeros _ n, ← crcUpdateZero_eq]
    rfl

theorem crcUpdateZeros_eq (crc : UInt32) (n : Nat) : crcUpdateZeros crc n = crcUpdateBlock crc (List.replicate n 0) :=
  (foldl_zeros crc n).symm

theorem generateWindowTable_eq (window : Nat) (old : UInt8) :
    generateWindowTable window old = crcUpdateBlock 0 (old :: List.replicate window 0) := by
  unfold generateWindowTable crcUpdateBlock
  rw [List.foldl_cons, foldl_zeros]
  simp [crcUpdateChar_eq]

theorem computeWindowMask_eq (window : Nat) : computeWindowMask window = crcOf (List.replicate window 0) := by
  unfold computeWindowMask crcOf crcUpdateBlock
  rw [foldl_zeros, UInt32.xor_comm]
  have hzero : (fun crc => crcUpdateChar crc 0) = crcUpdateZero := funext fun crc => (crcUpdateZero_eq crc).symm
  rw [hzero]

theorem crcUpdateBlock_append (crc : UInt32) (a b : List UInt8) :
    crcUpdateBlock crc (a ++ b) = crcUpdateBlock (crcUpdateBlock crc a) b := List.foldl_append

/-- Sliding the CRC by a byte gives the CRC of the moved window, for windows of every length. -/
theorem crcSlideChar_window (old new : UInt8) (mid : List UInt8) :
    computeWindowMask (mid.length + 1) ^^^ crcSlideChar (computeWindowMask (mid.length + 1) ^^^ crcOf (old :: mid)) new old
      (generateWindowTable (mid.length + 1)) = crcOf (mid ++ [new]) := by
  have h := @Additive.slide_masked (Parity UInt32) (Parity UInt8) _ _ crcUpdateChar crcUpdateChar_additive
    (~~~0 : UInt32) (~~~0 : UInt32) old new mid
  simp only [Parity.sub_eq_add] at h
  have hslide : ∀ crc, crcSlideChar crc new old (generateWindowTable (mid.length + 1)) =
      crcUpdateChar crc new ^^^ crcUpdateBlock 0 (old :: List.replicate (mid.length + 1) 0) := fun crc => by
    rw [← generateWindowTable_eq]
    rfl
  rw [computeWindowMask_eq, hslide, UInt32.xor_comm (crcOf (List.replicate _ _)) (crcOf (old :: mid))]
  exact h.symm

/-! ### Bits -/

/-- As long as the low bits are clear, the turns of the inner loop only move the bits down. -/
theorem crcBit_iterate_high (polynomial : UInt32) : ∀ (n : Nat) (crc : UInt32), crc.toNat % 2 ^ n = 0 →
    ((crcBit polynomial)^[n] crc).toNat = crc.toNat / 2 ^ n
  | 0, crc, _ => by simp
  | n + 1, crc, h => by
    have heven : crc &&& 1 = 0 := by
      refine UInt32.toNat_inj.mp ?_
      rw [UInt32.toNat_and]
      refine (Nat.and_one_is_mod _).trans ?_
      have := Nat.mod_mod_of_dvd crc.toNat (Dvd.intro_left (2 ^ n) (Nat.pow_succ (m := n) (n := 2)).symm)
      simp [h] at this
      exact this.symm
    have hbit : (crcBit polynomial crc).toNat = crc.toNat / 2 := by
      unfold crcBit
      simp [heven, UInt32.toNat_shiftRight, Nat.shiftRight_eq_div_pow]
    have hdiv : crc.toNat / 2 % 2 ^ n = 0 := by
      obtain ⟨k, hk⟩ := Nat.dvd_of_mod_eq_zero h
      rw [hk, Nat.pow_succ, Nat.mul_comm (2 ^ n), Nat.mul_assoc, Nat.mul_div_cancel_left _ (by decide), Nat.mul_mod_right]
    rw [Function.iterate_succ_apply, crcBit_iterate_high polynomial n _ (by rw [hbit]; exact hdiv), hbit, Nat.div_div_eq_div_mul,
      Nat.pow_succ, Nat.mul_comm]

theorem xor_low {n a b : Nat} (h : b < 2 ^ n) : (a * 2 ^ n) ^^^ b = a * 2 ^ n + b := by
  refine Nat.eq_of_testBit_eq fun i => ?_
  have hhigh := Nat.testBit_two_pow_mul_add a (Nat.two_pow_pos n) i
  rw [Nat.mul_comm] at hhigh
  rw [Nat.testBit_xor, Nat.mul_comm, Nat.testBit_two_pow_mul_add a h i, ← Nat.add_zero (2 ^ n * a), Nat.mul_comm, hhigh]
  by_cases hi : i < n
  · simp [hi]
  · simp [hi, Nat.testBit_lt_two_pow (h.trans_le (Nat.pow_le_pow_right (by decide) (Nat.le_of_not_lt hi)))]

theorem toNat_shiftLeft_byte {w : UInt32} (h : w.toNat < 2 ^ 24) : (w <<< 8).toNat = w.toNat * 2 ^ 8 := by
  rw [UInt32.toNat_shiftLeft, Nat.shiftLeft_eq]
  change w.toNat * 2 ^ 8 % 2 ^ 32 = _
  exact Nat.mod_eq_of_lt (by omega)

theorem toNat_shiftRight_byte (w : UInt32) : (w >>> 8).toNat = w.toNat / 2 ^ 8 := by
  rw [UInt32.toNat_shiftRight]
  exact Nat.shiftRight_eq_div_pow _ _

theorem toNat_high (crc : UInt32) : ((crc >>> 8) <<< 8).toNat = crc.toNat / 2 ^ 8 * 2 ^ 8 := by
  have hlt := crc.toNat_lt
  rw [toNat_shiftLeft_byte, toNat_shiftRight_byte]
  rw [toNat_shiftRight_byte]
  omega

theorem split_low (crc : UInt32) : ((crc >>> 8) <<< 8) ^^^ crc.toUInt8.toUInt32 = crc := by
  refine UInt32.toNat_inj.mp ?_
  rw [UInt32.toNat_xor, toNat_high, UInt8.toNat_toUInt32, UInt32.toNat_toUInt8, xor_low (Nat.mod_lt _ (by decide))]
  exact Nat.div_add_mod' _ _

/-- A byte taken in by the table is eight bits taken in one by one. -/
theorem crcUpdateChar_bits (crc : UInt32) (ch : UInt8) :
    crcUpdateChar crc ch = (crcBit 0xEDB88320)^[8] (crc ^^^ ch.toUInt32) := by
  have hhigh : (crcBit 0xEDB88320)^[8] (((crc ^^^ ch.toUInt32) >>> 8) <<< 8) = crc >>> 8 := by
    refine UInt32.toNat_inj.mp ?_
    rw [crcBit_iterate_high _ _ _ (by rw [toNat_high]; exact Nat.mul_mod_left _ _), toNat_high,
      Nat.mul_div_cancel _ (Nat.two_pow_pos 8), toNat_shiftRight_byte, UInt32.toNat_xor, UInt8.toNat_toUInt32,
      Nat.xor_div_two_pow, Nat.div_eq_of_lt ch.toNat_lt, Nat.xor_zero]
  rw [← split_low (crc ^^^ ch.toUInt32), crcBit_iterate_xor, hhigh, crcUpdateChar_eq, UInt32.toUInt8_xor]
  simp [ccitttable, generateCRC32Table]

theorem crcBit_eq_zero {crc : UInt32} (h : crcBit 0xEDB88320 crc = 0) : crc = 0 := by
  have hlt := crc.toNat_lt
  have hbit : (crc &&& 1).toNat = crc.toNat % 2 := by
    rw [UInt32.toNat_and]
    exact Nat.and_one_is_mod _
  have hshift : (crc >>> 1).toNat = crc.toNat / 2 := by
    rw [UInt32.toNat_shiftRight]
    exact Nat.shiftRight_eq_div_pow _ _
  unfold crcBit at h
  rcases and_one crc with hlow | hlow <;> rw [hlow] at h hbit
  · have hzero : crc >>> 1 = 0 := by simpa using h
    rw [hzero] at hshift
    refine UInt32.toNat_inj.mp ?_
    change 0 = _ at hshift
    change 0 = _ at hbit
    change _ = 0
    omega
  · have hpoly : crc >>> 1 = 0xEDB88320 := by simpa using h
    rw [hpoly] at hshift
    change 0xEDB88320 = _ at hshift
    omega

theorem crcBit_iterate_eq_zero : ∀ {n : Nat} {crc : UInt32}, (crcBit 0xEDB88320)^[n] crc = 0 → crc = 0
  | 0, _, h => h
  | _ + 1, _, h => crcBit_eq_zero (crcBit_iterate_eq_zero h)

theorem crcUpdateChar_eq_zero {crc : UInt32} (h : crcUpdateChar crc 0 = 0) : crc = 0 := by
  rw [crcUpdateChar_bits] at h
  simpa using crcBit_iterate_eq_zero h

/-- The bytes as a word, the first one lowest. -/
def wordOf : List UInt8 → UInt32
  | [] => 0
  | b :: bs => (wordOf bs <<< 8) ^^^ b.toUInt32

theorem wordOf_toNat : ∀ {bs : List UInt8}, bs.length ≤ 4 →
    (wordOf bs).toNat < 2 ^ (8 * bs.length) ∧ ∀ b, bs.length ≤ 3 → (wordOf (b :: bs)).toNat = (wordOf bs).toNat * 2 ^ 8 + b.toNat
  | [], _ => ⟨by decide, fun b _ => by simp [wordOf]⟩
  | c :: bs, h => by
    have ih := wordOf_toNat (Nat.le_of_succ_le h)
    have hpow : 2 ^ (8 * bs.length) ≤ 2 ^ 24 := Nat.pow_le_pow_right (by decide) (by simp at h; omega)
    have hc := c.toNat_lt
    have hlt : (wordOf (c :: bs)).toNat < 2 ^ (8 * (c :: bs).length) := by
      rw [ih.2 c (Nat.le_of_succ_le_succ h), List.length_cons, Nat.mul_add, Nat.pow_add]
      have := ih.1
      change _ < _ * 2 ^ 8
      omega
    refine ⟨hlt, fun b hb => ?_⟩
    have hpow' : 2 ^ (8 * (c :: bs).length) ≤ 2 ^ 24 := Nat.pow_le_pow_right (by decide) (by omega)
    rw [wordOf, UInt32.toNat_xor, toNat_shiftLeft_byte (hlt.trans_le hpow'), UInt8.toNat_toUInt32, xor_low b.toNat_lt]

theorem crcUpdateChar_wordOf {b : UInt8} {bs : List UInt8} (h : bs.length ≤ 3) :
    crcUpdateChar (wordOf (b :: bs)) b = wordOf bs := by
  have hlt := (wordOf_toNat (Nat.le_succ_of_le h)).1
  have hpow : 2 ^ (8 * bs.length) ≤ 2 ^ 24 := Nat.pow_le_pow_right (by decide) (by omega)
  have hword : wordOf (b :: bs) ^^^ b.toUInt32 = wordOf bs <<< 8 := by
    rw [wordOf, UInt32.xor_assoc, UInt32.xor_self, UInt32.xor_zero]
  have hshift := toNat_shiftLeft_byte (hlt.trans_le hpow)
  rw [crcUpdateChar_bits, hword]
  refine UInt32.toNat_inj.mp ?_
  rw [crcBit_iterate_high _ _ _ (by rw [hshift]; exact Nat.mul_mod_left _ _), hshift, Nat.mul_div_cancel _ (Nat.two_pow_pos 8)]

/-- Up to four bytes lead to zero from one state only. -/
theorem eq_wordOf_of_foldl : ∀ {bs : List UInt8} {s : UInt32}, bs.length ≤ 4 → bs.foldl crcUpdateChar s = 0 → s = wordOf bs
  | [], _, _, h => h
  | b :: bs, s, hlen, h => by
    have ih : crcUpdateChar s b = wordOf bs := eq_wordOf_of_foldl (Nat.le_of_succ_le hlen) h
    have hsum : crcUpdateChar (s ^^^ wordOf (b :: bs)) 0 = 0 := by
      rw [show (0 : UInt8) = b ^^^ b by simp, crcUpdateChar_xor, ih, crcUpdateChar_wordOf (Nat.le_of_succ_le_succ hlen),
        UInt32.xor_self]
    exact UInt32.xor_eq_zero_iff.mp (crcUpdateChar_eq_zero hsum)

theorem eq_zero_of_wordOf : ∀ {bs : List UInt8}, bs.length ≤ 4 → wordOf bs = 0 → ∀ b ∈ bs, b = 0
  | [], _, _, _, hb => by cases hb
  | b :: bs, hlen, h, c, hc => by
    have hsum := (wordOf_toNat (Nat.le_of_succ_le hlen)).2 b (Nat.le_of_succ_le_succ hlen)
    rw [h] at hsum
    change 0 = _ at hsum
    rcases List.mem_cons.mp hc with rfl | hc
    · exact UInt8.toNat_inj.mp (show _ = 0 by omega)
    · exact eq_zero_of_wordOf (Nat.le_of_succ_le hlen) (UInt32.toNat_inj.mp (show _ = 0 by omega)) c hc

/-- Blocks that differ in four bytes in a row at most have different checksums. -/
theorem crcOf_burst (before after xs ys : List UInt8) (hlen : xs.length = ys.length) (hshort : xs.length ≤ 4) (hne : xs ≠ ys) :
    crcOf (before ++ xs ++ after) ≠ crcOf (before ++ ys ++ after) := by
  intro heq
  have hblock := (UInt32.xor_right_inj _).mp heq
  simp only [crcUpdateBlock, List.foldl_append] at hblock
  generalize before.foldl crcUpdateChar (~~~0) = s at hblock
  have hstate : xs.foldl crcUpdateChar s = ys.foldl crcUpdateChar s := by
    by_contra hdiff
    exact @Additive.foldl_ne (Parity UInt32) (Parity UInt8) _ _ _ crcUpdateChar_additive (fun _ => crcUpdateChar_eq_zero) after _ _ hdiff hblock
  have hzero : (List.zipWith (· ^^^ ·) xs ys).foldl crcUpdateChar 0 = 0 := by
    have hsum : (List.zipWith (· ^^^ ·) xs ys).foldl crcUpdateChar (s ^^^ s) =
        xs.foldl crcUpdateChar s ^^^ ys.foldl crcUpdateChar s :=
      @Additive.foldl_zipWith (Parity UInt32) (Parity UInt8) _ _ _ crcUpdateChar_additive xs ys s s hlen
    rwa [UInt32.xor_self, hstate, UInt32.xor_self] at hsum
  have hshort' : (List.zipWith (· ^^^ ·) xs ys).length ≤ 4 := by
    rw [List.length_zipWith, hlen, Nat.min_self, ← hlen]
    exact hshort
  have hsame := eq_zero_of_wordOf hshort' (eq_wordOf_of_foldl hshort' hzero).symm
  refine hne (List.ext_getElem hlen fun i hi hi' => UInt8.xor_eq_zero_iff.mp (hsame _ ?_))
  rw [← List.getElem_zipWith (f := (· ^^^ ·)) (h := by rw [List.length_zipWith]; omega)]
  exact List.getElem_mem _

theorem crcOf_burst_sample : crcOf ([1] ++ [3, 4] ++ [2]) ≠ crcOf ([1] ++ [5, 4] ++ [2]) :=
  crcOf_burst [1] [2] [3, 4] [5, 4] rfl (by decide) (by decide)

end Nget

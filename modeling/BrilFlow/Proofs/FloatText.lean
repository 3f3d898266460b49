import Mathlib
import BrilFlow.Text.Lower

/-! Floats written exactly and read back: every finite binary64 value is a finite decimal, and the
nearest-value reader returns its own bits from that decimal. -/
namespace BrilFlow.Decimal

/-- Whether bits are a NaN: the largest exponent field and a nonzero fraction. -/
def isNaN (bits : UInt64) : Bool := !isFinite bits && fractionField bits != 0

section Fields

theorem exponentField_eq (b : UInt64) : exponentField b = b.toNat / 2 ^ 52 % 2 ^ 11 := by
  rw [exponentField, UInt64.toNat_and, UInt64.toNat_shiftRight, Nat.shiftRight_eq_div_pow]
  rw [show (0x7ff : UInt64).toNat = 2 ^ 11 - 1 from rfl, Nat.and_two_pow_sub_one_eq_mod]
  rfl

theorem fractionField_eq (b : UInt64) : fractionField b = b.toNat % 2 ^ 52 := by
  rw [fractionField, UInt64.toNat_and, show (0xfffffffffffff : UInt64).toNat = 2 ^ 52 - 1 from rfl,
    Nat.and_two_pow_sub_one_eq_mod]

theorem toNat_magnitude (b : UInt64) : (magnitude b).toNat = b.toNat % 2 ^ 63 := by
  rw [magnitude, UInt64.toNat_and, show (0x7fffffffffffffff : UInt64).toNat = 2 ^ 63 - 1 from rfl,
    Nat.and_two_pow_sub_one_eq_mod]

theorem signBit_iff (b : UInt64) : signBit b = true ↔ 2 ^ 63 ≤ b.toNat := by
  have hb := b.toNat_lt
  rw [signBit, beq_iff_eq, ← UInt64.toNat_inj, UInt64.toNat_shiftRight, Nat.shiftRight_eq_div_pow]
  simp only [UInt64.reduceToNat, Nat.reduceMod]
  omega

theorem toNat_negate (b : UInt64) : (negate b).toNat = (b.toNat + 2 ^ 63) % 2 ^ 64 := by
  have hb := b.toNat_lt
  rw [negate, UInt64.toNat_xor, show (0x8000000000000000 : UInt64).toNat = 2 ^ 63 from rfl]
  have low : (b.toNat ^^^ 2 ^ 63) % 2 ^ 63 = b.toNat % 2 ^ 63 := by
    rw [Nat.xor_mod_two_pow, Nat.mod_self, Nat.xor_zero]
  have high : (b.toNat ^^^ 2 ^ 63) / 2 ^ 63 = 1 - b.toNat / 2 ^ 63 := by
    rw [Nat.xor_div_two_pow, Nat.div_self (by positivity)]
    have top : b.toNat / 2 ^ 63 < 2 := by omega
    interval_cases b.toNat / 2 ^ 63 <;> rfl
  have := Nat.div_add_mod (b.toNat ^^^ 2 ^ 63) (2 ^ 63)
  omega

theorem negate_magnitude {b : UInt64} (h : signBit b = true) : negate (magnitude b) = b := by
  have hb := b.toNat_lt
  rw [signBit_iff] at h
  rw [← UInt64.toNat_inj, toNat_negate, toNat_magnitude]
  omega

theorem magnitude_eq_self {b : UInt64} (h : signBit b = false) : magnitude b = b := by
  have hb := b.toNat_lt
  have : ¬ 2 ^ 63 ≤ b.toNat := by rw [← signBit_iff, h]; simp
  rw [← UInt64.toNat_inj, toNat_magnitude]
  omega

theorem isNaN_of_exponentField {b : UInt64} (h : exponentField b ≠ 0x7ff) : isNaN b = false := by
  simp [isNaN, isFinite, h]

theorem isNaN_negate (b : UInt64) : isNaN (negate b) = isNaN b := by
  have hb := b.toNat_lt
  have e : exponentField (negate b) = exponentField b := by
    rw [exponentField_eq, exponentField_eq, toNat_negate]
    omega
  have f : fractionField (negate b) = fractionField b := by
    rw [fractionField_eq, fractionField_eq, toNat_negate]
    omega
  simp only [isNaN, isFinite, e, f]

theorem toNat_ofSignificand {m : Nat} {q : Int} (lt : m < 2 ^ 53) (low : -1074 ≤ q)
    (high : q ≤ 971) :
    (ofSignificand m q).toNat =
      if m < 2 ^ 52 then m else (q + 1075).toNat * 2 ^ 52 + (m - 2 ^ 52) := by
  unfold ofSignificand
  simp only [Nat.pow_eq]
  split
  · rw [UInt64.toNat_ofNat']
    omega
  · rw [UInt64.toNat_ofNat', Nat.shiftLeft_eq]
    omega

theorem isNaN_ofSignificand {m : Nat} {q : Int} (lt : m < 2 ^ 53) (low : -1074 ≤ q)
    (high : q ≤ 971) : isNaN (ofSignificand m q) = false := by
  apply isNaN_of_exponentField
  rw [exponentField_eq, toNat_ofSignificand lt low high]
  split <;> omega

theorem ofSignificand_fields {b : UInt64} (finite : isFinite b = true) :
    ofSignificand (significand b) (binaryExponent b) = magnitude b := by
  have hb := b.toNat_lt
  have e := exponentField_eq b
  have f := fractionField_eq b
  have ne : exponentField b ≠ 0x7ff := by simpa [isFinite] using finite
  rw [← UInt64.toNat_inj, toNat_magnitude]
  unfold significand binaryExponent
  simp only [Nat.pow_eq]
  split
  · rw [toNat_ofSignificand (by omega) (by omega) (by omega), if_pos (by omega)]
    omega
  · rw [toNat_ofSignificand (by omega) (by omega) (by omega), if_neg (by omega)]
    omega

end Fields

/-- A positive finite binary64 value `m · 2^q`, its significand in range: normal, or subnormal at
the least exponent. -/
structure Representable (m : Nat) (q : Int) : Prop where
  pos : 0 < m
  lt : m < 2 ^ 53
  low : -1074 ≤ q
  high : q ≤ 971
  normal : 2 ^ 52 ≤ m ∨ q = -1074

theorem representable_fields {b : UInt64} (finite : isFinite b = true) (nonzero : significand b ≠ 0) :
    Representable (significand b) (binaryExponent b) := by
  have hb := b.toNat_lt
  have e := exponentField_eq b
  have f := fractionField_eq b
  have ne : exponentField b ≠ 0x7ff := by simpa [isFinite] using finite
  unfold significand binaryExponent at *
  simp only [Nat.pow_eq] at *
  split
  · rename_i zero
    rw [if_pos zero] at nonzero
    exact ⟨by omega, by omega, le_rfl, by omega, .inr rfl⟩
  · exact ⟨by omega, by omega, by omega, by omega, .inl (by omega)⟩

section Reading

theorem roundHalfEven_mul {b : Nat} (m : Nat) (hb : 0 < b) : roundHalfEven (b * m) b = m := by
  unfold roundHalfEven
  rw [Nat.mul_div_cancel_left m hb, Nat.mul_mod_right]
  simp
  omega

theorem roundHalfEven_le {a b c : Nat} (h : a < b * c) : roundHalfEven a b ≤ c := by
  have : a / b < c := Nat.div_lt_of_lt_mul h
  unfold roundHalfEven
  dsimp only
  split <;> omega

theorem atLeastPow2_iff {num den : Nat} {k : Int} :
    atLeastPow2 num den k = true ↔ (den : ℚ) * 2 ^ k ≤ num := by
  unfold atLeastPow2
  split
  · rename_i nonneg
    obtain ⟨n, rfl⟩ := Int.eq_ofNat_of_zero_le nonneg
    simp only [Int.toNat_natCast, Nat.pow_eq, decide_eq_true_eq, zpow_natCast]
    exact_mod_cast Iff.rfl
  · rename_i neg
    obtain ⟨n, hn⟩ := Int.exists_eq_neg_ofNat (le_of_lt (not_le.mp neg))
    subst hn
    simp only [neg_neg, Int.toNat_natCast, Nat.pow_eq, decide_eq_true_eq, zpow_neg, zpow_natCast]
    rw [← div_eq_mul_inv, div_le_iff₀ (by positivity)]
    exact_mod_cast Iff.rfl

theorem log2_bounds {n : Nat} (hn : n ≠ 0) :
    (2 : ℚ) ^ (n.log2 : Int) ≤ n ∧ (n : ℚ) < 2 ^ ((n.log2 : Int) + 1) := by
  have lo := Nat.log2_self_le hn
  have hi := Nat.lt_log2_self (n := n)
  constructor
  · rw [zpow_natCast]; exact_mod_cast lo
  · rw [← Nat.cast_one, ← Nat.cast_add, zpow_natCast]; exact_mod_cast hi

theorem log2_sub_bounds {num den : Nat} (hn : num ≠ 0) (hd : den ≠ 0) :
    (den : ℚ) * 2 ^ ((num.log2 : Int) - den.log2 - 1) ≤ num ∧
      (num : ℚ) < den * 2 ^ ((num.log2 : Int) - den.log2 + 1) := by
  obtain ⟨numLo, numHi⟩ := log2_bounds hn
  obtain ⟨denLo, denHi⟩ := log2_bounds hd
  constructor
  · calc (den : ℚ) * 2 ^ ((num.log2 : Int) - den.log2 - 1)
        ≤ 2 ^ ((den.log2 : Int) + 1) * 2 ^ ((num.log2 : Int) - den.log2 - 1) :=
          mul_le_mul_of_nonneg_right denHi.le (by positivity)
      _ = 2 ^ (num.log2 : Int) := by rw [← zpow_add₀ two_ne_zero]; ring_nf
      _ ≤ num := numLo
  · calc (num : ℚ) < 2 ^ ((num.log2 : Int) + 1) := numHi
      _ = 2 ^ (den.log2 : Int) * 2 ^ ((num.log2 : Int) - den.log2 + 1) := by
          rw [← zpow_add₀ two_ne_zero]; ring_nf
      _ ≤ den * 2 ^ ((num.log2 : Int) - den.log2 + 1) :=
          mul_le_mul_of_nonneg_right denLo (by positivity)

/-- `floorLog2 num den` is `⌊log₂ (num / den)⌋`. -/
theorem floorLog2_spec {num den : Nat} (hn : num ≠ 0) (hd : den ≠ 0) :
    (den : ℚ) * 2 ^ floorLog2 num den ≤ num ∧ (num : ℚ) < den * 2 ^ (floorLog2 num den + 1) := by
  obtain ⟨lo, hi⟩ := log2_sub_bounds hn hd
  unfold floorLog2
  dsimp only
  split
  · rename_i reached
    exact ⟨atLeastPow2_iff.mp reached, hi⟩
  · rename_i short
    rw [atLeastPow2_iff, not_le] at short
    rw [sub_add_cancel]
    exact ⟨lo, short⟩

theorem floorLog2_eq {num den : Nat} (hn : num ≠ 0) (hd : den ≠ 0) {f : Int}
    (lo : (den : ℚ) * 2 ^ f ≤ num) (hi : (num : ℚ) < den * 2 ^ (f + 1)) :
    floorLog2 num den = f := by
  obtain ⟨lo', hi'⟩ := floorLog2_spec hn hd
  have dpos : (0 : ℚ) ≤ den := Nat.cast_nonneg den
  have below : f < floorLog2 num den + 1 :=
    (zpow_lt_zpow_iff_right₀ one_lt_two).mp (lt_of_mul_lt_mul_left (lo.trans_lt hi') dpos)
  have above : floorLog2 num den < f + 1 :=
    (zpow_lt_zpow_iff_right₀ one_lt_two).mp (lt_of_mul_lt_mul_left (lo'.trans_lt hi) dpos)
  omega

theorem Representable.log2_add {m : Nat} {q : Int} (rep : Representable m q) :
    max ((m.log2 : Int) + q - 52) (-1074) = q := by
  have hm : m ≠ 0 := rep.pos.ne'
  have top : m.log2 < 53 := (Nat.log2_lt hm).mpr rep.lt
  have := rep.low
  rcases rep.normal with normal | sub
  · have : 52 ≤ m.log2 := (Nat.le_log2 hm).mpr normal
    omega
  · omega

/-- On a ratio equal to a representable value, the reader finds that value exactly. -/
theorem nearestRatio_exact {m : Nat} {q : Int} (rep : Representable m q) {num den : Nat}
    (hd : den ≠ 0) (exact : (num : ℚ) = den * m * 2 ^ q) :
    nearestRatio num den = ofSignificand m q := by
  have dpos : (0 : ℚ) < den := by exact_mod_cast Nat.pos_of_ne_zero hd
  have tpos : (0 : ℚ) < 2 ^ q := zpow_pos (by norm_num) q
  have hn : num ≠ 0 := by
    rintro rfl
    have : (0 : ℚ) < den * m * 2 ^ q := by have := rep.pos; positivity
    rw [← exact] at this
    simp at this
  obtain ⟨mLo, mHi⟩ := log2_bounds rep.pos.ne'
  have floor : floorLog2 num den = m.log2 + q := by
    apply floorLog2_eq hn hd
    · rw [exact, zpow_add₀ two_ne_zero, ← mul_assoc]
      exact mul_le_mul_of_nonneg_right (mul_le_mul_of_nonneg_left mLo dpos.le) tpos.le
    · rw [exact, add_right_comm, zpow_add₀ two_ne_zero, ← mul_assoc]
      exact mul_lt_mul_of_pos_right (mul_lt_mul_of_pos_left mHi dpos) tpos
  -- the ratio scaled by `2^-q` is `m` exactly, so rounding leaves it
  have rounded : (if 0 ≤ q then roundHalfEven num (den * 2 ^ q.toNat)
      else roundHalfEven (num * 2 ^ (-q).toNat) den) = m := by
    split
    · rename_i nonneg
      have natEq : num = den * 2 ^ q.toNat * m := by
        have : (num : ℚ) = ((den * 2 ^ q.toNat * m : Nat) : ℚ) := by
          push_cast
          rw [exact, ← zpow_natCast, Int.toNat_of_nonneg nonneg]
          ring
        exact_mod_cast this
      rw [natEq, roundHalfEven_mul m (by positivity)]
    · rename_i neg
      have natEq : num * 2 ^ (-q).toNat = den * m := by
        have : ((num * 2 ^ (-q).toNat : Nat) : ℚ) = ((den * m : Nat) : ℚ) := by
          push_cast
          rw [exact, ← zpow_natCast, Int.toNat_of_nonneg (by omega), mul_assoc,
            ← zpow_add₀ two_ne_zero]
          simp
        exact_mod_cast this
      rw [natEq, roundHalfEven_mul m (Nat.pos_of_ne_zero hd)]
  unfold nearestRatio
  simp only [floor, rep.log2_add, Nat.pow_eq, rounded, if_neg rep.lt.ne,
    if_neg (not_lt.mpr rep.high)]

theorem decimalLength_bounds {n : Nat} (hn : n ≠ 0) :
    (10 : ℚ) ^ ((decimalLength n : Int) - 1) ≤ n ∧ (n : ℚ) < 10 ^ (decimalLength n : Int) := by
  have pos : 0 < decimalLength n := Nat.length_toDigits_pos
  have hi : n < 10 ^ decimalLength n := (Nat.length_toDigits_le_iff (by norm_num) pos).mp le_rfl
  have lo : 10 ^ (decimalLength n - 1) ≤ n := by
    rcases Nat.eq_or_lt_of_le (Nat.succ_le_of_lt pos) with one | more
    · rw [← one]; simpa [Nat.one_le_iff_ne_zero] using hn
    · rw [← not_lt, ← Nat.length_toDigits_le_iff (by norm_num) (by omega)]
      unfold decimalLength at more ⊢
      omega
  constructor
  · rw [show (decimalLength n : Int) - 1 = ((decimalLength n - 1 : Nat) : Int) by omega,
      zpow_natCast]
    exact_mod_cast lo
  · rw [zpow_natCast]; exact_mod_cast hi

theorem Representable.value_bounds {m : Nat} {q : Int} (rep : Representable m q) :
    (2 : ℚ) ^ (-1074 : Int) ≤ m * 2 ^ q ∧ (m : ℚ) * 2 ^ q < 2 ^ (1024 : Int) := by
  have one : (1 : ℚ) ≤ m := by exact_mod_cast rep.pos
  have top : (m : ℚ) < 2 ^ (53 : Int) := by rw [zpow_ofNat]; exact_mod_cast rep.lt
  have tpos : (0 : ℚ) < 2 ^ q := zpow_pos (by norm_num) q
  constructor
  · calc (2 : ℚ) ^ (-1074 : Int) ≤ 2 ^ q := zpow_le_zpow_right₀ (by norm_num) rep.low
      _ ≤ m * 2 ^ q := le_mul_of_one_le_left tpos.le one
  · calc (m : ℚ) * 2 ^ q < 2 ^ (53 : Int) * 2 ^ q := mul_lt_mul_of_pos_right top tpos
      _ ≤ 2 ^ (53 : Int) * 2 ^ (971 : Int) :=
        mul_le_mul_of_nonneg_left (zpow_le_zpow_right₀ (by norm_num) rep.high) (by positivity)
      _ = 2 ^ (1024 : Int) := by rw [← zpow_add₀ two_ne_zero]; norm_num

/-- A decimal `n · 10^e` equal to a representable value is read as that value: its digits stay
within the range where the reader neither overflows nor flushes to zero. -/
theorem nearest_exact {m : Nat} {q : Int} (rep : Representable m q) {n : Nat} {e : Int}
    (he : e < 0) (exact : (n : ℚ) * 10 ^ e = m * 2 ^ q) : nearest n e = ofSignificand m q := by
  obtain ⟨vLo, vHi⟩ := rep.value_bounds
  have hn : n ≠ 0 := by
    rintro rfl
    have : (0 : ℚ) < 2 ^ (-1074 : Int) := by positivity
    rw [Nat.cast_zero, zero_mul] at exact
    linarith
  obtain ⟨dLo, dHi⟩ := decimalLength_bounds hn
  have tpos : (0 : ℚ) < 10 ^ e := zpow_pos (by norm_num) e
  -- `n · 10^e` is below `2^1024 < 10^309` and at least `2^-1074 > 10^-324`
  have upper : (decimalLength n : Int) + e ≤ 309 := by
    have : (10 : ℚ) ^ ((decimalLength n : Int) - 1 + e) < 10 ^ (309 : Int) := by
      calc (10 : ℚ) ^ ((decimalLength n : Int) - 1 + e)
          = 10 ^ ((decimalLength n : Int) - 1) * 10 ^ e := by rw [zpow_add₀ (by norm_num)]
        _ ≤ n * 10 ^ e := mul_le_mul_of_nonneg_right dLo tpos.le
        _ < 2 ^ (1024 : Int) := exact ▸ vHi
        _ < 10 ^ (309 : Int) := by
          rw [zpow_ofNat, zpow_ofNat]
          exact_mod_cast (by decide +kernel : (2 : ℕ) ^ 1024 < 10 ^ 309)
    have := (zpow_lt_zpow_iff_right₀ (by norm_num)).mp this
    omega
  have lower : -323 ≤ (decimalLength n : Int) + e := by
    have : (10 : ℚ) ^ (-324 : Int) < 10 ^ ((decimalLength n : Int) + e) := by
      calc (10 : ℚ) ^ (-324 : Int) < 2 ^ (-1074 : Int) := by
            rw [zpow_neg, zpow_neg, zpow_ofNat, zpow_ofNat,
              inv_lt_inv₀ (by positivity) (by positivity)]
            exact_mod_cast (by decide +kernel : (2 : ℕ) ^ 1074 < 10 ^ 324)
        _ ≤ n * 10 ^ e := exact ▸ vLo
        _ < 10 ^ (decimalLength n : Int) * 10 ^ e := mul_lt_mul_of_pos_right dHi tpos
        _ = 10 ^ ((decimalLength n : Int) + e) := by rw [zpow_add₀ (by norm_num)]
    have := (zpow_lt_zpow_iff_right₀ (by norm_num)).mp this
    omega
  unfold nearest
  rw [if_neg hn, if_neg (by omega), if_neg (by omega), if_neg (by omega)]
  apply nearestRatio_exact rep (Nat.pow_pos (by norm_num)).ne'
  rw [Nat.cast_pow, Nat.cast_ofNat, mul_assoc, ← exact, ← zpow_natCast,
    Int.toNat_of_nonneg (by omega), mul_left_comm, ← zpow_add₀ (by norm_num), neg_add_cancel,
    zpow_zero, mul_one]

/-- The reader rounds to a significand of at most 53 bits, so its result is never a NaN. -/
theorem isNaN_nearestRatio {num den : Nat} (hn : num ≠ 0) (hd : den ≠ 0) :
    isNaN (nearestRatio num den) = false := by
  obtain ⟨-, hi⟩ := floorLog2_spec hn hd
  have dpos : (0 : ℚ) ≤ den := Nat.cast_nonneg den
  set q := max (floorLog2 num den - 52) (-1074) with hq
  -- the ratio scaled by `2^-q` is below `2^53`, so its rounding is at most `2^53`
  have scaled : (num : ℚ) < den * 2 ^ q * 2 ^ (53 : Int) := by
    calc (num : ℚ) < den * 2 ^ (floorLog2 num den + 1) := hi
      _ ≤ den * 2 ^ (q + 53) :=
        mul_le_mul_of_nonneg_left (zpow_le_zpow_right₀ one_le_two (by omega)) dpos
      _ = den * 2 ^ q * 2 ^ (53 : Int) := by rw [zpow_add₀ two_ne_zero, mul_assoc]
  rw [show (2 : ℚ) ^ (53 : Int) = 9007199254740992 by norm_num] at scaled
  have rounded : (if 0 ≤ q then roundHalfEven num (den * 2 ^ q.toNat)
      else roundHalfEven (num * 2 ^ (-q).toNat) den) ≤ 2 ^ 53 := by
    split
    · rename_i nonneg
      apply roundHalfEven_le
      have : (num : ℚ) < ((den * 2 ^ q.toNat * 2 ^ 53 : Nat) : ℚ) := by
        push_cast
        rwa [← zpow_natCast, Int.toNat_of_nonneg nonneg]
      exact_mod_cast this
    · rename_i neg
      apply roundHalfEven_le
      have : ((num * 2 ^ (-q).toNat : Nat) : ℚ) < ((den * 2 ^ 53 : Nat) : ℚ) := by
        push_cast
        have twoq : (0 : ℚ) < 2 ^ (-q) := zpow_pos two_pos _
        rw [← zpow_natCast, Int.toNat_of_nonneg (by omega)]
        calc (num : ℚ) * 2 ^ (-q) < den * 2 ^ q * 9007199254740992 * 2 ^ (-q) :=
              mul_lt_mul_of_pos_right scaled twoq
          _ = den * 9007199254740992 := by
              rw [mul_right_comm, mul_assoc (den : ℚ), ← zpow_add₀ two_ne_zero, add_neg_cancel,
                zpow_zero, mul_one]
      exact_mod_cast this
  unfold nearestRatio
  simp only [← hq, Nat.pow_eq]
  generalize (if 0 ≤ q then roundHalfEven num (den * 2 ^ q.toNat)
      else roundHalfEven (num * 2 ^ (-q).toNat) den) = r at rounded ⊢
  have low : -1074 ≤ q := le_max_right _ _
  split_ifs with carry top top
  · rfl
  · exact isNaN_ofSignificand (by norm_num) (by omega) (by omega)
  · rfl
  · exact isNaN_ofSignificand (by omega) low (by omega)

theorem isNaN_nearest (n : Nat) (e : Int) : isNaN (nearest n e) = false := by
  unfold nearest
  split_ifs with zero
  · rfl
  · rfl
  · rfl
  · exact isNaN_nearestRatio (Nat.mul_ne_zero zero (Nat.pow_pos (by norm_num)).ne') one_ne_zero
  · exact isNaN_nearestRatio zero (Nat.pow_pos (by norm_num)).ne'

end Reading

/-- The exact decimal of the positive value `m · 2^q`: `N.0` with `N = m · 2^q` when `q ≥ 0`, and
`N.0e-k` with `N = m · 5^k` when `q = -k`. -/
def exactText (m : Nat) : Int → String
  | .ofNat n => (m * 2 ^ n).repr ++ ".0"
  | .negSucc n => (m * 5 ^ (n + 1)).repr ++ ".0e-" ++ (n + 1).repr

/-- The text of a value without its sign: exact when finite, and a decimal beyond the largest
finite value for an infinity. -/
def magnitudeText (bits : UInt64) : String :=
  if isFinite bits then
    if significand bits = 0 then "0.0" else exactText (significand bits) (binaryExponent bits)
  else if fractionField bits = 0 then "1.0e999" else "NaN"

def floatText (bits : UInt64) : String :=
  if signBit bits then "-" ++ magnitudeText bits else magnitudeText bits

end BrilFlow.Decimal

namespace BrilFlow.Text

open BrilFlow.Decimal

theorem digitsValue_append (l : List Char) (c : Char) :
    digitsValue (l ++ [c]) = digitsValue l * 10 + (c.toNat - 48) := by
  simp [digitsValue, List.foldl_append]

theorem digitsValue_nil : digitsValue [] = 0 := rfl

theorem digitsValue_toDigits (n : Nat) : digitsValue (Nat.toDigits 10 n) = n := by
  have : digitsValue (Nat.toDigits 10 n) = Nat.ofDigitChars 10 (Nat.toDigits 10 n) 0 := by
    unfold digitsValue
    rw [Nat.ofDigitChars_eq_foldl]
    congr 1
    funext acc c
    rw [Nat.mul_comm]
    rfl
  rw [this, Nat.ofDigitChars_ten_toDigits]

theorem isDigit_of_mem_toDigits {n : Nat} {c : Char} (h : c ∈ Nat.toDigits 10 n) : c.isDigit = true :=
  Nat.isDigit_of_mem_toDigits (by norm_num) (by norm_num) h

theorem dropWhile_sign_toDigits (k : Nat) :
    (Nat.toDigits 10 k).dropWhile (fun c => decide (c = '+') || decide (c = '-')) =
      Nat.toDigits 10 k := by
  obtain ⟨d, ds, hd⟩ := List.exists_cons_of_ne_nil (Nat.toDigits_ne_nil (n := k) (b := 10))
  have digit : d.isDigit = true := isDigit_of_mem_toDigits (hd ▸ List.mem_cons_self)
  rw [hd, List.dropWhile_cons_of_neg]
  rintro h
  simp only [Bool.or_eq_true, decide_eq_true_eq] at h
  rcases h with rfl | rfl <;> simp at digit

theorem toDigits_append_head (n : Nat) (rest : List Char) :
    (Nat.toDigits 10 n ++ rest).head? ≠ some '-' := by
  obtain ⟨d, ds, hd⟩ := List.exists_cons_of_ne_nil (Nat.toDigits_ne_nil (n := n) (b := 10))
  have digit : d.isDigit = true := isDigit_of_mem_toDigits (hd ▸ List.mem_cons_self)
  rw [hd]
  rintro h
  simp only [List.cons_append, List.head?_cons, Option.some.injEq] at h
  subst h
  simp at digit

theorem floatValue_minus {t u : String} (ht : t.toList = '-' :: u.toList)
    (hu : u.toList.head? ≠ some '-') : floatValue t = negate (floatValue u) := by
  unfold floatValue
  simp only [ht, hu, List.head?_cons, List.drop_one, List.tail_cons, if_true, if_false]

theorem floatValue_decimal {t : String} {N : Nat} {expo : List Char} {e : Int}
    (ht : t.toList = Nat.toDigits 10 N ++ '.' :: '0' :: expo)
    (hexpo : expo = [] ∧ e = 0 ∨ ∃ k, expo = 'e' :: '-' :: Nat.toDigits 10 k ∧ e = -k) :
    floatValue t = nearest (10 * N) (e - 1) := by
  have digits : ∀ c ∈ Nat.toDigits 10 N, c.isDigit = true := fun c hc => isDigit_of_mem_toDigits hc
  have head := toDigits_append_head N ('.' :: '0' :: expo)
  have whole : digitsValue (Nat.toDigits 10 N ++ ['0']) = 10 * N := by
    rw [digitsValue_append, digitsValue_toDigits]
    simp
    ring
  unfold floatValue
  simp only [ht, head, if_false, List.takeWhile_append_of_pos digits,
    List.dropWhile_append_of_pos digits]
  rcases hexpo with ⟨rfl, rfl⟩ | ⟨k, rfl, rfl⟩
  · simp +decide [whole, digitsValue_nil]
  · simp +decide [whole, dropWhile_sign_toDigits, digitsValue_toDigits]

theorem floatValue_exactText {m : Nat} {q : Int} (rep : Representable m q) :
    floatValue (exactText m q) = ofSignificand m q := by
  cases q with
  | ofNat n =>
    have text : (exactText m (.ofNat n)).toList = Nat.toDigits 10 (m * 2 ^ n) ++ ['.', '0'] := by
      simp [exactText]
    rw [floatValue_decimal text (.inl ⟨rfl, rfl⟩)]
    apply nearest_exact rep (by norm_num)
    rw [show Int.ofNat n = (n : Int) from rfl, zpow_natCast]
    push_cast
    rw [zpow_neg_one]
    ring
  | negSucc n =>
    have text : (exactText m (.negSucc n)).toList =
        Nat.toDigits 10 (m * 5 ^ (n + 1)) ++ '.' :: '0' :: 'e' :: '-' :: Nat.toDigits 10 (n + 1) := by
      simp [exactText]
    rw [floatValue_decimal text (.inr ⟨n + 1, rfl, rfl⟩)]
    apply nearest_exact rep (by omega)
    rw [show -((n + 1 : Nat) : Int) - 1 = -((n + 2 : Nat) : Int) by omega,
      show Int.negSucc n = -((n + 1 : Nat) : Int) from rfl, zpow_neg, zpow_neg, zpow_natCast,
      zpow_natCast]
    push_cast
    rw [show (10 : ℚ) = 2 * 5 by norm_num, mul_pow]
    field_simp
    ring

theorem ofSignificand_zero (q : Int) : ofSignificand 0 q = 0 := rfl

theorem floatValue_magnitudeText {bits : UInt64} (h : isNaN bits = false) :
    floatValue (magnitudeText bits) = magnitude bits := by
  unfold magnitudeText
  split
  · rename_i finite
    rw [← ofSignificand_fields finite]
    split
    · rename_i zero
      rw [zero, ofSignificand_zero]
      decide
    · rename_i nonzero
      exact floatValue_exactText (representable_fields finite nonzero)
  · rename_i infinite
    have fraction : fractionField bits = 0 := by simpa [isNaN, infinite] using h
    have exponent : exponentField bits = 0x7ff := by simpa [isFinite] using infinite
    have hb := bits.toNat_lt
    rw [if_pos fraction, show floatValue "1.0e999" = infinityBits by decide, ← UInt64.toNat_inj,
      toNat_magnitude]
    rw [exponentField_eq] at exponent
    rw [fractionField_eq] at fraction
    rw [show infinityBits.toNat = 2047 * 2 ^ 52 from rfl]
    omega

theorem magnitudeText_head (bits : UInt64) : (magnitudeText bits).toList.head? ≠ some '-' := by
  unfold magnitudeText
  split
  · split
    · decide
    · cases binaryExponent bits <;>
      · simp only [exactText, String.toList_append, Nat.toList_repr, List.append_assoc]
        exact toDigits_append_head _ _
  · split <;> decide

/-- Every float but a NaN is read back from its text to its own bits. -/
theorem floatValue_floatText {bits : UInt64} (h : isNaN bits = false) :
    floatValue (floatText bits) = bits := by
  unfold floatText
  cases sign : signBit bits
  · rw [if_neg Bool.false_ne_true, floatValue_magnitudeText h, magnitude_eq_self sign]
  · rw [if_pos rfl, floatValue_minus (u := magnitudeText bits) (by simp) (magnitudeText_head bits),
      floatValue_magnitudeText h, negate_magnitude sign]

theorem isNaN_floatValue (t : String) : isNaN (floatValue t) = false := by
  unfold floatValue
  dsimp only
  split
  · rw [isNaN_negate, isNaN_nearest]
  · exact isNaN_nearest _ _

theorem isNaN_floatOfInt (n : Int) : isNaN (Literal.floatOfInt n) = false := by
  unfold Literal.floatOfInt
  split
  · exact isNaN_nearest _ _
  · rw [isNaN_negate, isNaN_nearest]

end BrilFlow.Text

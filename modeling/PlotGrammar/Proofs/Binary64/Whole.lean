import PlotGrammar.Proofs.Binary64.Bits

/-! # Whole numbers as doubles

  A whole number of 64 bits is far below the largest double, so it is rounded
  to a finite one (`isFinite_ofNat`), as is its negative
  (`isFinite_neg_ofNat`).

  The bound that is carried along is one on the power of two of a double
  (`Within`): rounding raises it by one at most, and multiplying adds.
-/

namespace PlotGrammar.Binary64

open Float.Model Float.Model.UnpackedFloat

/-! ### Powers of two -/

theorem log2_div_add_le {m shift : Nat} (h : m / 2 ^ shift ≠ 0) :
    (m / 2 ^ shift).log2 + shift ≤ m.log2 := by
  have hm : m ≠ 0 := by
    rintro rfl
    exact h (Nat.zero_div _)
  apply (Nat.le_log2 hm).2
  calc 2 ^ ((m / 2 ^ shift).log2 + shift) = 2 ^ (m / 2 ^ shift).log2 * 2 ^ shift := Nat.pow_add ..
    _ ≤ m / 2 ^ shift * 2 ^ shift := Nat.mul_le_mul_right _ (Nat.log2_self_le h)
    _ ≤ m := Nat.div_mul_le_self m _

theorem log2_mul_le (m n : Nat) : (m * n).log2 ≤ m.log2 + n.log2 + 1 := by
  by_cases hzero : m * n = 0
  · rw [hzero, Nat.log2_zero]
    exact Nat.zero_le _
  · apply Nat.le_of_lt_succ
    apply (Nat.log2_lt hzero).2
    have hm : m < 2 ^ (m.log2 + 1) := Nat.lt_log2_self
    have hn : n < 2 ^ (n.log2 + 1) := Nat.lt_log2_self
    calc m * n < 2 ^ (m.log2 + 1) * 2 ^ (n.log2 + 1) := Nat.mul_lt_mul'' hm hn
      _ = 2 ^ (m.log2 + 1 + (n.log2 + 1)) := (Nat.pow_add ..).symm
      _ = 2 ^ (m.log2 + n.log2 + 1).succ := by
          congr 1
          omega

theorem log2_shiftLeft_le (m shift : Nat) : (m <<< shift).log2 ≤ m.log2 + shift + 1 := by
  have hlog := log2_mul_le m (2 ^ shift)
  rw [Nat.log2_two_pow] at hlog
  rw [Nat.shiftLeft_eq]
  exact hlog

theorem log2_le_of_le_succ {m n : Nat} (h : n ≤ m + 1) : n.log2 ≤ m.log2 + 1 := by
  by_cases hn : n = 0
  · rw [hn, Nat.log2_zero]
    exact Nat.zero_le _
  · apply Nat.le_of_lt_succ
    apply (Nat.log2_lt hn).2
    have hm : m < 2 ^ (m.log2 + 1) := Nat.lt_log2_self
    have hpow : 2 ^ (m.log2 + 1 + 1) = 2 * 2 ^ (m.log2 + 1) := Nat.pow_succ'
    rw [Nat.succ_eq_add_one, hpow]
    omega

theorem log2_lt_of_lt {m k : Nat} (hk : 0 < k) (h : m < 2 ^ k) : m.log2 < k := by
  by_cases hm : m = 0
  · rw [hm, Nat.log2_zero]
    exact hk
  · exact (Nat.log2_lt hm).2 h

/-! ### Rounding -/

theorem mantissa_shiftRight (em : ExtendedMantissa) (shift : Nat) :
    (em >>> shift).mantissa = em.mantissa / 2 ^ shift := by
  show (Nat.repeat ExtendedMantissa.shiftRightOne shift em).mantissa = em.mantissa / 2 ^ shift
  induction shift with
  | zero => simp [Nat.repeat]
  | succ shift ih =>
    rw [Nat.repeat, ExtendedMantissa.shiftRightOne, ih, Nat.pow_succ, Nat.div_div_eq_div_mul]

theorem mantissa_ofMantissaAndAccuracy (m : Nat) (accuracy : Accuracy) :
    (ExtendedMantissa.ofMantissaAndAccuracy m accuracy).mantissa = m := by
  unfold ExtendedMantissa.ofMantissaAndAccuracy
  split <;> rfl

theorem roundedMantissa_le (em : ExtendedMantissa) : em.roundedMantissa ≤ em.mantissa + 1 := by
  unfold ExtendedMantissa.roundedMantissa Accuracy.roundToNearestEven
  split
  · omega
  · omega
  · omega
  · omega

/-- Shifting to the exponent of the format does not raise the power of two. -/
theorem log2_shiftToTargetExponent_le {m : Nat} {e k : Int} (accuracy : Accuracy)
    (h : m.log2 + e ≤ k) (hk : -1074 ≤ k) :
    ((shiftToTargetExponent .binary64 m e accuracy).1.mantissa.log2 : Int) +
      (shiftToTargetExponent .binary64 m e accuracy).2 ≤ k := by
  have htarget : Format.targetExponent .binary64 (totalExponent m e) =
      max (m.log2 + 1 + e - 53) (-1074) := rfl
  simp only [shiftToTargetExponent, shiftToExponent, htarget, mantissa_shiftRight,
    mantissa_ofMantissaAndAccuracy]
  generalize hshift : (max ((m.log2 : Int) + 1 + e - 53) (-1074) - e).toNat = shift
  by_cases hzero : m / 2 ^ shift = 0
  · rw [hzero, Nat.log2_zero]
    omega
  · have hlog := log2_div_add_le hzero
    omega

/-! ### Bounds on doubles -/

/-- The double is a number below `2 ^ (k + 1)` in size. -/
inductive Within (k : Int) : UnpackedFloat → Prop where
  | zero (sign : Sign) : Within k (.zero sign)
  | finite (sign : Sign) {m : Nat} {e : Int} (hm : 0 < m) (h : m.log2 + e ≤ k) :
    Within k (.finite sign m e hm)

theorem within_roundWithAccuracy {m : Nat} {e k : Int} (sign : Sign) (accuracy : Accuracy)
    (h : m.log2 + e ≤ k) (hk : -1074 ≤ k) :
    Within (k + 1) (roundWithAccuracy .binary64 sign m e accuracy) := by
  have hfirst := log2_shiftToTargetExponent_le accuracy h hk
  have hrounded := log2_le_of_le_succ
    (roundedMantissa_le (shiftToTargetExponent .binary64 m e accuracy).1)
  have hsecond := log2_shiftToTargetExponent_le (k := k + 1) .exact
    (m := (shiftToTargetExponent .binary64 m e accuracy).1.roundedMantissa)
    (e := (shiftToTargetExponent .binary64 m e accuracy).2) (by omega) (by omega)
  unfold roundWithAccuracy
  dsimp only
  split
  · exact .zero sign
  · exact .finite sign _ hsecond

theorem within_mul {a b : UnpackedFloat} {j k : Int} (ha : Within j a) (hb : Within k b)
    (hjk : -1075 ≤ j + k) : Within (j + k + 2) (mul .binary64 a b) := by
  cases ha with
  | zero s =>
    cases hb with
    | zero s' => exact .zero (s * s')
    | finite s' hm' hb => exact .zero (s * s')
  | @finite s m e hm ha =>
    cases hb with
    | zero s' => exact .zero (s * s')
    | @finite s' m' e' hm' hb =>
      have hlog := log2_mul_le m m'
      have hbound := within_roundWithAccuracy (s * s') .exact
        (show ((m * m').log2 : Int) + (e + e') ≤ j + k + 1 by omega) (by omega)
      rw [Int.add_assoc] at hbound
      exact hbound

theorem Within.neg {a : UnpackedFloat} {k : Int} (h : Within k a) : Within k a.neg := by
  cases h with
  | zero sign => exact .zero (-sign)
  | finite sign hm h => exact .finite (-sign) hm h

theorem Within.mono {a : UnpackedFloat} {j k : Int} (h : Within j a) (hjk : j ≤ k) :
    Within k a := by
  cases h with
  | zero sign => exact .zero sign
  | finite sign hm h => exact .finite sign hm (Int.le_trans h hjk)

theorem Within.isFinite {a : UnpackedFloat} {k : Int} (h : Within k a) : a.isFinite = true := by
  cases h with
  | zero sign => rfl
  | finite sign hm h => rfl

/-- The bits of the exponent bound the double, unless all of them are set. -/
theorem within_unpack_packComponents (sign : Sign) {exponent : BitVec 11} (mantissa : BitVec 52)
    (h : exponent.toNat < 2047) :
    Within (exponent.toNat - 1023) (unpack .binary64 (packComponents .binary64 sign exponent mantissa)) := by
  have hset : exponent ≠ -1#11 := by
    rintro rfl
    exact absurd h (by decide)
  unfold UnpackedFloat.unpack
  simp only [unpackMantissa_packComponents, unpackExponent_packComponents, hset, if_false]
  have hmantissa := mantissa.isLt
  split
  · next hzero =>
    split
    · exact .zero _
    · have hlog := log2_lt_of_lt (by decide) hmantissa
      apply Within.finite
      show (mantissa.toNat.log2 : Int) + ((exponent.toNat : Int) - 1075 + 1) ≤ exponent.toNat - 1023
      omega
  · have hlog : (1#1 ++ mantissa).toNat.log2 < 53 :=
      log2_lt_of_lt (by decide) (1#1 ++ mantissa).isLt
    apply Within.finite
    show ((1#1 ++ mantissa).toNat.log2 : Int) + ((exponent.toNat : Int) - 1075) ≤
      exponent.toNat - 1023
    omega

/-- Packing keeps a bound that is below the largest double. -/
theorem within_unpack_pack {a : UnpackedFloat} {k : Int} (h : Within k a) (hk : 0 ≤ k)
    (hlarge : k ≤ 900) : Within k (unpack .binary64 (a.pack .binary64)) := by
  cases h with
  | zero sign =>
    show Within k (unpack .binary64 (packedZero .binary64 sign))
    rw [unpack_packedZero]
    exact .zero sign
  | @finite sign m e hm h =>
    have hbiased : (e + 1023 + 52).toNat + 1 < 2048 := by omega
    show Within k (unpack .binary64
      (if 2 ^ 11 ≤ (e + 1023 + 52).toNat + 1 then packedInfinity .binary64 sign
      else if m.log2 + 1 = 53 then
        packComponents .binary64 sign (BitVec.ofNat 11 (e + 1023 + 52).toNat) (BitVec.ofNat 52 m)
      else packComponents .binary64 sign 0#11 (BitVec.ofNat 52 m)))
    rw [if_neg (by omega)]
    split
    · next hnormal =>
      have hexponent : (BitVec.ofNat 11 (e + 1023 + 52).toNat).toNat = (e + 1023 + 52).toNat := by
        rw [BitVec.toNat_ofNat]
        exact Nat.mod_eq_of_lt (by omega)
      apply (within_unpack_packComponents sign _ (by omega)).mono
      omega
    · apply (within_unpack_packComponents sign _ (by decide)).mono
      rw [BitVec.toNat_ofNat]
      omega

/-! ### Whole numbers -/

/-- A whole number is moved to the exponent of the format and rounded. -/
theorem within_ofNat {n : Nat} {k : Int} (hn : n.log2 + 1 ≤ k) :
    Within (k + 1) (UnpackedFloat.ofNat .binary64 n) := by
  cases n with
  | zero => exact .zero .positive
  | succ n =>
    show Within (k + 1) (UnpackedFloat.round .binary64 .positive (n + 1) 0)
    unfold UnpackedFloat.round decreaseExponent
    dsimp only
    generalize (0 - Format.targetExponent .binary64 (totalExponent (n + 1) 0)).toNat = shift
    have hshift := log2_shiftLeft_le (n + 1) shift
    apply within_roundWithAccuracy .positive .exact
    · omega
    · omega

/-- A larger whole number is written with more digits and multiplied by one. -/
theorem within_ofScientific {n : Nat} (hlog : n.log2 < 64) :
    Within 300 (UnpackedFloat.ofScientific .binary64 n 0) := by
  unfold UnpackedFloat.ofScientific
  split
  · exact .zero .positive
  · have hexponents : Format.exponentBits .binary64 = 11 := rfl
    have hbits : Format.mantissaBits .binary64 = 53 := rfl
    rw [if_neg (by decide), if_neg (by rw [hexponents]; omega), if_pos (Int.le_refl 0)]
    simp only [hbits]
    have hshift := log2_shiftLeft_le n 53
    have hfactor : ∀ hpos, Within 65 (.finite .positive (n <<< 53) (-(53 : Nat)) hpos) :=
      fun hpos => .finite .positive hpos (by omega)
    have hone : ∀ hpos, Within 65 (.finite .positive (10 ^ Int.toNat 0) 0 hpos) :=
      fun hpos => .finite .positive hpos (by decide)
    exact (within_mul (hfactor _) (hone _) (by decide)).mono (by decide)

theorem within_unpack_ofNat {n : Nat} (h : n < 2 ^ 64) :
    Within 300 (Float.ofNat n).toModel.unpack := by
  have hlog := log2_lt_of_lt (by decide) h
  show Within 300 (Float.ofScientific n false 0).toModel.unpack
  unfold Float.ofScientific
  split
  · have hvalue : n.toUInt64.toNat = n := Nat.mod_eq_of_lt h
    have hround : Within (64 + 1) (UnpackedFloat.ofNat .binary64 n.toUInt64.toNat) := by
      rw [hvalue]
      exact within_ofNat (by omega)
    have hfactor : Within 65 n.toUInt64.toFloat.toModel.unpack :=
      within_unpack_pack hround (by decide) (by decide)
    have hone : Within 65 (Float.ofBits 0x3FF0000000000000).toModel.unpack :=
      .finite .positive (by decide) (by decide)
    have hproduct := within_mul hfactor hone (by decide)
    exact (within_unpack_pack hproduct (by decide) (by decide)).mono (by decide)
  · exact within_unpack_pack (within_ofScientific hlog) (by decide) (by decide)

/-- A whole number of 64 bits is rounded to a finite double. -/
theorem isFinite_ofNat {n : Nat} (h : n < 2 ^ 64) : (Float.ofNat n).isFinite = true :=
  (within_unpack_ofNat h).isFinite

theorem isFinite_neg_ofNat {n : Nat} (h : n < 2 ^ 64) : (-Float.ofNat n).isFinite = true := by
  have hneg := within_unpack_pack (within_unpack_ofNat h).neg (by decide) (by decide)
  exact hneg.isFinite

end PlotGrammar.Binary64

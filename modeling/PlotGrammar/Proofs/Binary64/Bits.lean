import Mathlib
import PlotGrammar.Binary64

/-! # The bits of doubles

  A double is made up of its sign and its size bits (`ofSizeBits_sizeBits`).
  It is finite if its size bits are below those of infinity, and only then
  (`isFinite_ofSizeBits`, `sizeBits_lt_infinityBits`). Comparisons of finite
  doubles are as of numbers (`beq_self_of_isFinite`, `not_le_zero_iff`).
-/

namespace PlotGrammar.Binary64

/-- The size bits and the sign are all there is to a double. -/
theorem ofSizeBits_sizeBits (x : Float) : ofSizeBits (negative x) (sizeBits x) = x := by
  have hsplit : (if negative x then Nat.pow 2 63 else 0) + sizeBits x = x.toBits.toNat := by
    have hlt := x.toBits.toNat_lt
    by_cases hsign : Nat.pow 2 63 ≤ x.toBits.toNat
    · simp only [negative, sizeBits, hsign, decide_true, if_true]
      simp only [Nat.pow_eq] at hsign ⊢
      omega
    · simp only [negative, sizeBits, hsign, decide_false, Bool.false_eq_true, if_false]
      simp only [Nat.pow_eq] at hsign ⊢
      omega
  rw [ofSizeBits, hsplit, UInt64.ofNat_toNat, Float.ofBits_toBits]

open Float.Model in
/-- A pattern of bits stands for a number unless all exponent bits are set. -/
theorem isFinite_unpack_iff (bits : BitVec 64) :
    (UnpackedFloat.unpack .binary64 bits).isFinite = true ↔
      (@UnpackedFloat.unpackExponent .binary64 bits).toNat ≠ 2047 := by
  have hset : (@UnpackedFloat.unpackExponent .binary64 bits).toNat = 2047 ↔
      @UnpackedFloat.unpackExponent .binary64 bits = -1#11 := BitVec.toNat_inj (y := -1#11)
  rw [Ne, hset]
  unfold UnpackedFloat.unpack
  by_cases hexponent : @UnpackedFloat.unpackExponent .binary64 bits = -1#11
  · simp only [hexponent, if_true, not_true_eq_false, iff_false]
    split
    · exact Bool.false_ne_true
    · exact Bool.false_ne_true
  · simp only [hexponent, if_false, not_false_eq_true, iff_true]
    split
    · split
      · rfl
      · rfl
    · rfl

open Float.Model in
theorem unpackExponent_eq (bits : BitVec 64) :
    (@UnpackedFloat.unpackExponent .binary64 bits).toNat = bits.toNat / 2 ^ 52 % 2 ^ 11 := by
  rw [UnpackedFloat.unpackExponent_def, BitVec.extractLsb'_toNat, Nat.shiftRight_eq_div_pow]

/-- A finite double does not have all of its exponent bits set. -/
theorem sizeBits_lt_infinityBits {x : Float} (h : x.isFinite = true) :
    sizeBits x < infinityBits := by
  have hexponent := (isFinite_unpack_iff x.toBits.toBitVec).1 h
  have hlt := x.toBits.toNat_lt
  rw [unpackExponent_eq, UInt64.toNat_toBitVec] at hexponent
  simp only [sizeBits, infinityBits, Nat.pow_eq]
  omega

theorem toNat_ofSizeBits (isNegative : Bool) {bits : Nat} (h : bits < infinityBits) :
    (UInt64.ofNat ((if isNegative then Nat.pow 2 63 else 0) + bits)).toNat =
      (if isNegative then Nat.pow 2 63 else 0) + bits := by
  rw [UInt64.toNat_ofNat']
  simp only [infinityBits, Nat.pow_eq] at h
  cases isNegative with
  | false =>
    simp only [Bool.false_eq_true, if_false]
    omega
  | true =>
    simp only [if_true, Nat.pow_eq]
    omega

open Float.Model in
theorem unpackExponent_ofSizeBits (isNegative : Bool) {bits : Nat} (h : bits < infinityBits) :
    (@UnpackedFloat.unpackExponent .binary64
      (UInt64.ofNat ((if isNegative then Nat.pow 2 63 else 0) + bits)).toBitVec).toNat ≠ 2047 := by
  rw [unpackExponent_eq, UInt64.toNat_toBitVec, toNat_ofSizeBits isNegative h]
  simp only [infinityBits, Nat.pow_eq] at h
  cases isNegative with
  | false =>
    simp only [Bool.false_eq_true, if_false]
    omega
  | true =>
    simp only [if_true, Nat.pow_eq]
    omega

open Float.Model in
/-- Size bits below those of infinity are kept as they are. -/
theorem pack_unpack_ofSizeBits (isNegative : Bool) {bits : Nat} (h : bits < infinityBits) :
    UnpackedFloat.pack .binary64 (UnpackedFloat.unpack .binary64
      (UInt64.ofNat ((if isNegative then Nat.pow 2 63 else 0) + bits)).toBitVec) =
      (UInt64.ofNat ((if isNegative then Nat.pow 2 63 else 0) + bits)).toBitVec := by
  have hexponent := unpackExponent_ofSizeBits isNegative h
  have hnan : @UnpackedFloat.isNaNBits .binary64
      (UInt64.ofNat ((if isNegative then Nat.pow 2 63 else 0) + bits)).toBitVec = false := by
    rw [UnpackedFloat.isNaNBits, decide_eq_false_iff_not]
    rintro ⟨hset, -⟩
    rw [hset] at hexponent
    exact hexponent rfl
  rw [UnpackedFloat.pack_unpack, hnan, if_neg Bool.false_ne_true]

open Float.Model in
/-- Size bits below those of infinity are those of a finite double. -/
theorem isFinite_ofSizeBits (isNegative : Bool) {bits : Nat} (h : bits < infinityBits) :
    (ofSizeBits isNegative bits).isFinite = true := by
  show (UnpackedFloat.unpack .binary64 (UnpackedFloat.pack .binary64
    (UnpackedFloat.unpack .binary64 _))).isFinite = true
  rw [pack_unpack_ofSizeBits isNegative h]
  exact (isFinite_unpack_iff _).2 (unpackExponent_ofSizeBits isNegative h)

/-- A finite double has the sign and the size bits that it is made of. -/
theorem toBits_ofSizeBits (isNegative : Bool) {bits : Nat} (h : bits < infinityBits) :
    (ofSizeBits isNegative bits).toBits.toNat = (if isNegative then Nat.pow 2 63 else 0) + bits := by
  have htoBits : (ofSizeBits isNegative bits).toBits =
      UInt64.ofNat ((if isNegative then Nat.pow 2 63 else 0) + bits) := by
    show UInt64.ofBitVec (Float.Model.UnpackedFloat.pack .binary64
      (Float.Model.UnpackedFloat.unpack .binary64 _)) = _
    rw [pack_unpack_ofSizeBits isNegative h]
  rw [htoBits, toNat_ofSizeBits isNegative h]

theorem sizeBits_ofSizeBits (isNegative : Bool) {bits : Nat} (h : bits < infinityBits) :
    sizeBits (ofSizeBits isNegative bits) = bits := by
  rw [sizeBits, toBits_ofSizeBits isNegative h]
  simp only [infinityBits, Nat.pow_eq] at h ⊢
  cases isNegative with
  | false =>
    simp only [Bool.false_eq_true, if_false]
    omega
  | true =>
    simp only [if_true]
    omega

theorem negative_ofSizeBits (isNegative : Bool) {bits : Nat} (h : bits < infinityBits) :
    negative (ofSizeBits isNegative bits) = isNegative := by
  rw [negative, toBits_ofSizeBits isNegative h]
  simp only [infinityBits, Nat.pow_eq] at h ⊢
  cases isNegative with
  | false =>
    simp only [Bool.false_eq_true, if_false, decide_eq_false_iff_not]
    omega
  | true =>
    simp only [if_true, decide_eq_true_eq]
    omega

/-- A double is equal to itself unless it is a NaN. -/
theorem beq_self_iff {x : Float} : (x == x) = true ↔ x.isNaN = false := by
  rw [Float.beq_iff_ne_nan_and_eq, Float.isNaN_eq_decide_eq_nan, decide_eq_false_iff_not]
  constructor
  · intro h
    exact h.1
  · intro hnan
    exact ⟨hnan, hnan, .inl rfl⟩

theorem isNaN_of_isFinite {x : Float} (h : x.isFinite = true) : x.isNaN = false := by
  rw [Float.isNaN_eq_decide_eq_nan, decide_eq_false_iff_not]
  rintro rfl
  exact absurd h (by decide)

/-- A finite double is equal to itself. -/
theorem beq_self_of_isFinite {x : Float} (h : x.isFinite = true) : (x == x) = true :=
  beq_self_iff.2 (isNaN_of_isFinite h)

open Float.Model in
/-- A finite double is not at most zero exactly if it is positive. -/
theorem not_le_zero_iff {x : Float} (h : x.isFinite = true) : ¬ x ≤ 0.0 ↔ 0.0 < x := by
  have hzero : (0.0 : Float).toModel.unpack = .zero .positive := rfl
  have hle : x ≤ 0.0 ↔ x.toModel.unpack.le (0.0 : Float).toModel.unpack = true :=
    decide_eq_true_iff
  have hlt : 0.0 < x ↔ (0.0 : Float).toModel.unpack.lt x.toModel.unpack = true :=
    decide_eq_true_iff
  have hfinite : x.toModel.unpack.isFinite = true := h
  rw [hle, hlt, hzero]
  -- Only the sign of a finite double counts in a comparison with zero.
  generalize x.toModel.unpack = unpacked at hfinite ⊢
  cases unpacked with
  | infinity sign => cases hfinite
  | notANumber => cases hfinite
  | zero sign => simp [UnpackedFloat.le, UnpackedFloat.lt, UnpackedFloat.compare]
  | finite sign mantissa exponent hpos =>
    cases sign <;> simp [UnpackedFloat.le, UnpackedFloat.lt, UnpackedFloat.compare]

end PlotGrammar.Binary64

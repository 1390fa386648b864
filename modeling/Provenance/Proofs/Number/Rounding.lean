import Mathlib
import Provenance.Number.Binary64

/-!
# Whole numbers as floating point numbers

A whole number of up to 64 bits becomes the floating point number next to it.
Below `2 ^ 53` that is the number itself and comes out of a product with one; from
there on the last bits are rounded off. Either way the 63 bits behind the sign
are `place`, which never falls, so rounding keeps the order of whole numbers
(`rank_ofInt_mono`), although it can make two of them one.
-/

namespace Provenance.Binary64

open Float.Model Float.Model.UnpackedFloat

/-! ## Rounding off -/

/-- A mantissa with what was shifted out of it, as one number. -/
def grade (em : ExtendedMantissa) : Nat :=
  4 * em.mantissa + (2 * em.roundBit.toNat + em.stickyBit.toNat)

theorem grade_shiftRightOne (em : ExtendedMantissa) :
    grade em.shiftRightOne = 2 * (grade em / 4) + min 1 (grade em % 4) := by
  obtain ⟨m, r, s⟩ := em
  have hm : (m % 2 != 0).toNat = m % 2 := by
    rcases Nat.mod_two_eq_zero_or_one m with h | h <;> simp [h]
  have hrs : (r || s).toNat = min 1 (2 * r.toNat + s.toNat) := by
    cases r <;> cases s <;> rfl
  have hlt : 2 * r.toNat + s.toNat < 4 := by
    cases r <;> cases s <;> decide
  simp only [grade, ExtendedMantissa.shiftRightOne, hm, hrs]
  omega

theorem shiftRight_succ (em : ExtendedMantissa) (k : Nat) : em >>> (k + 1) = (em >>> k).shiftRightOne :=
  rfl

theorem grade_shiftRight_mono {a b : ExtendedMantissa} (h : grade a ≤ grade b) (k : Nat) :
    grade (a >>> k) ≤ grade (b >>> k) := by
  induction k with
  | zero => exact h
  | succ k ih =>
    rw [shiftRight_succ, shiftRight_succ, grade_shiftRightOne, grade_shiftRightOne]
    omega

theorem roundedMantissa_mono {a b : ExtendedMantissa} (h : grade a ≤ grade b) :
    a.roundedMantissa ≤ b.roundedMantissa := by
  obtain ⟨m, r, s⟩ := a
  obtain ⟨n, t, u⟩ := b
  cases r <;> cases s <;> cases t <;> cases u <;>
    simp [grade, ExtendedMantissa.roundedMantissa, ExtendedMantissa.accuracy,
      Accuracy.roundToNearestEven] at h ⊢ <;> omega

/-- The mantissa `m`, rounded to what is left when its last `k` bits are taken off. -/
def roundOff (m k : Nat) : Nat :=
  (ExtendedMantissa.mk m false false >>> k).roundedMantissa

theorem roundOff_mono {m n : Nat} (h : m ≤ n) (k : Nat) : roundOff m k ≤ roundOff n k :=
  roundedMantissa_mono (grade_shiftRight_mono (by simpa [grade] using h) k)

theorem exact_shiftRight (m k : Nat) : ExtendedMantissa.mk (m * 2 ^ k) false false >>> k = ⟨m, false, false⟩ := by
  induction k generalizing m with
  | zero => simp [HShiftRight.hShiftRight, Nat.repeat]
  | succ k ih =>
    rw [shiftRight_succ, show m * 2 ^ (k + 1) = 2 * m * 2 ^ k by ring, ih]
    simp [ExtendedMantissa.shiftRightOne]

theorem roundOff_exact (m k : Nat) : roundOff (m * 2 ^ k) k = m := by
  rw [roundOff, exact_shiftRight]
  rfl

/-! ## Rounding to 53 bits -/

theorem shiftToTargetExponent_small {m : Nat} {e : Int} (hm : m < 2 ^ 53) (he : -1074 ≤ e) :
    shiftToTargetExponent Format.binary64 m e .exact = (⟨m, false, false⟩, e) := by
  have hk : m.log2 ≤ 52 := by
    by_cases h : m = 0
    · simp [h]
    · have := (Nat.log2_lt h).mpr hm
      omega
  have hs : (Format.binary64.targetExponent (totalExponent m e) - e).toNat = 0 := by
    simp only [Format.targetExponent, totalExponent, Format.mantissaBits, Format.minExponent]
    omega
  simp [shiftToTargetExponent, shiftToExponent, hs, HShiftRight.hShiftRight, Nat.repeat,
    ExtendedMantissa.ofMantissaAndAccuracy]

theorem shiftToTargetExponent_carry {e : Int} (he : -1074 ≤ e) :
    shiftToTargetExponent Format.binary64 (2 ^ 53) e .exact = (⟨2 ^ 52, false, false⟩, e + 1) := by
  have ht : Format.binary64.targetExponent (totalExponent (2 ^ 53) e) = e + 1 := by
    simp only [Format.targetExponent, totalExponent, Nat.log2_two_pow, Format.mantissaBits, Format.minExponent]
    omega
  unfold shiftToTargetExponent
  rw [ht]
  simp [shiftToExponent, HShiftRight.hShiftRight, Nat.repeat, ExtendedMantissa.ofMantissaAndAccuracy,
    ExtendedMantissa.shiftRightOne]

theorem roundOff_bounds {m s : Nat} (hm : m ≠ 0) (hs : m.log2 = 52 + s) :
    2 ^ 52 ≤ roundOff m s ∧ roundOff m s ≤ 2 ^ 53 := by
  have hlow : 2 ^ 52 * 2 ^ s ≤ m := by
    rw [← Nat.pow_add, ← hs]
    exact Nat.log2_self_le hm
  have hhigh : m ≤ 2 ^ 53 * 2 ^ s := by
    rw [← Nat.pow_add, show 53 + s = m.log2 + 1 by omega]
    exact Nat.lt_log2_self.le
  exact ⟨by simpa only [roundOff_exact] using roundOff_mono hlow s,
    by simpa only [roundOff_exact] using roundOff_mono hhigh s⟩

/-- The number is `sign` followed by the 63 bits of `p`, and it has all 53 bits of the mantissa. -/
def Encodes (x : UnpackedFloat) (sign : Sign) (p : Nat) : Prop :=
  ∃ (n : Nat) (e : Int) (hn : 0 < n), x = .finite sign n e hn ∧ 2 ^ 52 ≤ n ∧ n < 2 ^ 53 ∧ -1074 ≤ e ∧ e ≤ 971 ∧
    (p : Int) = (e + 1074) * 2 ^ 52 + n

/-- Where `s` bits are too many. Rounding up can carry, which moves the exponent and leaves the last 52 bits zero. -/
theorem encodes_roundWithAccuracy {m s p : Nat} {e : Int} (sign : Sign) (hm : m ≠ 0) (hs : m.log2 = 52 + s)
    (hlow : -1074 ≤ e + s) (hhigh : e + s ≤ 970) (hp : (p : Int) = (e + s + 1074) * 2 ^ 52 + roundOff m s) :
    Encodes (roundWithAccuracy Format.binary64 sign m e .exact) sign p := by
  have hshift : shiftToTargetExponent Format.binary64 m e .exact =
      (ExtendedMantissa.mk m false false >>> s, e + s) := by
    have ht : (Format.binary64.targetExponent (totalExponent m e) - e).toNat = s := by
      simp only [Format.targetExponent, totalExponent, Format.mantissaBits, Format.minExponent, hs]
      omega
    unfold shiftToTargetExponent
    simp only [shiftToExponent, ht]
    rfl
  obtain ⟨hge, hle⟩ := roundOff_bounds hm hs
  have hround : (ExtendedMantissa.mk m false false >>> s).roundedMantissa = roundOff m s := rfl
  unfold roundWithAccuracy
  simp only [hshift, hround]
  rcases Nat.lt_or_ge (roundOff m s) (2 ^ 53) with hlt | hcarry
  · have hne : roundOff m s ≠ 0 := by omega
    simp only [shiftToTargetExponent_small hlt hlow, dif_neg hne]
    exact ⟨_, _, Nat.pos_of_ne_zero hne, rfl, hge, hlt, hlow, by omega, hp⟩
  · have heq : roundOff m s = 2 ^ 53 := by omega
    simp only [heq, shiftToTargetExponent_carry hlow]
    exact ⟨2 ^ 52, e + s + 1, by decide, by simp, by omega, by omega, by omega, by omega, by omega⟩

theorem log2_eq {m k : Nat} (hlow : 2 ^ k ≤ m) (hhigh : m < 2 ^ (k + 1)) : m.log2 = k :=
  (Nat.log2_eq_iff (by have := Nat.two_pow_pos k; omega)).mpr ⟨hlow, hhigh⟩

theorem pack_normal {n : Nat} {e : Int} (sign : Sign) (hn : 0 < n) (hlow : 2 ^ 52 ≤ n) (hhigh : n < 2 ^ 53)
    (hmin : -1074 ≤ e) (hmax : e ≤ 971) :
    UnpackedFloat.pack Format.binary64 (.finite sign n e hn) =
      packComponents Format.binary64 sign (BitVec.ofNat 11 (e + 1075).toNat) (BitVec.ofNat 52 n) := by
  have hlog : n.log2 = 52 := log2_eq hlow hhigh
  have hb : e + (Format.binary64.exponentBias : Int) + (Format.binary64.mantissaBitsWithoutImplicit : Int) =
      e + 1075 := by
    simp only [Format.exponentBias]
    omega
  simp only [UnpackedFloat.pack, hb, hlog]
  rw [if_neg (by omega), if_pos (by rfl)]

theorem toNat_append_eq_add {i j : Nat} (x : BitVec i) (y : BitVec j) :
    (x ++ y).toNat = x.toNat * 2 ^ j + y.toNat := by
  rw [BitVec.toNat_append, ← Nat.shiftLeft_add_eq_or_of_lt y.isLt, Nat.shiftLeft_eq]

theorem Encodes.unpack_pack {x : UnpackedFloat} {sign : Sign} {p : Nat} (h : Encodes x sign p) :
    (Float.Model.pack x).unpack = x := by
  obtain ⟨n, e, hn, rfl, hlow, hhigh, hmin, hmax, -⟩ := h
  have he : (BitVec.ofNat 11 (e + 1075).toNat).toNat = (e + 1075).toNat := by
    rw [BitVec.toNat_ofNat]
    omega
  have hm : (1#1 ++ BitVec.ofNat 52 n).toNat = n := by
    rw [toNat_append_eq_add, BitVec.toNat_ofNat, BitVec.toNat_ofNat]
    omega
  have hone : BitVec.ofNat 11 (e + 1075).toNat ≠ -1#11 := fun h => by
    have := congrArg BitVec.toNat h
    rw [he, show (-1#11).toNat = 2047 by decide] at this
    omega
  have hzero : BitVec.ofNat 11 (e + 1075).toNat ≠ 0#11 := fun h => by
    have := congrArg BitVec.toNat h
    rw [he, show (0#11).toNat = 0 by decide] at this
    omega
  have hb : ((e + 1075).toNat : Int) -
      ((Format.binary64.exponentBias : Int) + (Format.binary64.mantissaBitsWithoutImplicit : Int)) = e := by
    simp only [Format.exponentBias]
    omega
  unfold Float.Model.unpack Float.Model.pack
  simp only [pack_normal sign hn hlow hhigh hmin hmax, UnpackedFloat.unpack, unpackExponent_packComponents,
    unpackMantissa_packComponents, unpackSign_packComponents, hone, hzero, if_false, Sign.ofBitVec_toBitVec, he, hm, hb]

theorem Encodes.toNat_pack {x : UnpackedFloat} {sign : Sign} {p : Nat} (h : Encodes x sign p) :
    (UnpackedFloat.pack Format.binary64 x).toNat = sign.toBitVec.toNat * 2 ^ 63 + p := by
  obtain ⟨n, e, hn, rfl, hlow, hhigh, hmin, hmax, hp⟩ := h
  rw [pack_normal sign hn hlow hhigh hmin hmax, packComponents, toNat_append_eq_add, toNat_append_eq_add,
    BitVec.toNat_ofNat, BitVec.toNat_ofNat]
  omega

theorem Encodes.neg {x : UnpackedFloat} {sign : Sign} {p : Nat} (h : Encodes x sign p) : Encodes x.neg (-sign) p := by
  obtain ⟨n, e, hn, rfl, h⟩ := h
  exact ⟨n, e, hn, rfl, h⟩

/-! ## Whole numbers -/

/-- The rank of the number next to `n`. -/
def place (n : Nat) : Nat :=
  if n = 0 then 0 else (n.log2 + 1022) * 2 ^ 52 + roundOff (n * 2 ^ 53) (n.log2 + 1)

theorem log2_mul_two_pow {n : Nat} (hn : n ≠ 0) (k : Nat) : (n * 2 ^ k).log2 = n.log2 + k := by
  refine log2_eq ?_ ?_
  · rw [Nat.pow_add]
    exact Nat.mul_le_mul_right _ (Nat.log2_self_le hn)
  · rw [show n.log2 + k + 1 = n.log2 + 1 + k by omega, Nat.pow_add]
    exact Nat.mul_lt_mul_of_pos_right Nat.lt_log2_self (Nat.two_pow_pos k)

theorem place_bounds {n : Nat} (hn : n ≠ 0) :
    (n.log2 + 1023) * 2 ^ 52 ≤ place n ∧ place n ≤ (n.log2 + 1024) * 2 ^ 52 := by
  have hlog : (n * 2 ^ 53).log2 = 52 + (n.log2 + 1) := by
    rw [log2_mul_two_pow hn]
    omega
  obtain ⟨hlow, hhigh⟩ := roundOff_bounds (mul_ne_zero hn (by decide)) hlog
  rw [place, if_neg hn]
  generalize roundOff _ _ = r at hlow hhigh ⊢
  omega

theorem log2_mono {m n : Nat} (h : m ≤ n) : m.log2 ≤ n.log2 := by
  rw [Nat.log2_eq_log_two, Nat.log2_eq_log_two]
  exact Nat.log_mono_right h

/-- Of two numbers with the same leading bit the same bits are rounded off. -/
theorem place_mono {m n : Nat} (h : m ≤ n) : place m ≤ place n := by
  by_cases hm : m = 0
  · simp [place, hm]
  · have hn : n ≠ 0 := by omega
    rcases (log2_mono h).lt_or_eq with hlt | heq
    · have hm' := (place_bounds hm).2
      have hn' := (place_bounds hn).1
      omega
    · have hround := roundOff_mono (Nat.mul_le_mul_right (2 ^ 53) h) (m.log2 + 1)
      rw [place, place, if_neg hm, if_neg hn, ← heq]
      omega

theorem toModel_ofNat_large {n : Nat} (h : 2 ^ 53 ≤ n) :
    (Float.ofNat n).toModel =
      Float.Model.pack (roundWithAccuracy Format.binary64 .positive (n * 2 ^ 53) (-53) .exact) := by
  have hofNat : Float.ofNat n = ⟨Float.Model.ofScientific n 0⟩ := by
    change Float.ofScientific n false 0 = _
    rw [Float.ofScientific, dif_neg (by omega)]
    rfl
  have hround : UnpackedFloat.ofScientific Format.binary64 n 0 =
      roundWithAccuracy Format.binary64 .positive (n * 2 ^ 53) (-53) .exact := by
    rw [UnpackedFloat.ofScientific, dif_neg (by omega), if_neg (by decide),
      if_neg (not_lt.mpr (by simp only [Left.neg_nonpos_iff]; positivity)), if_pos (by decide)]
    change roundWithAccuracy Format.binary64 .positive (n <<< 53 * 1) (-53) .exact = _
    rw [Nat.mul_one, Nat.shiftLeft_eq]
  rw [hofNat, Float.Model.ofScientific, hround]

theorem toModel_ofNat_small {n : Nat} (h : n < 2 ^ 53) :
    (Float.ofNat n).toModel = Float.Model.ofUInt64 n.toUInt64 * Float.Model.ofBits 4607182418800017408 := by
  have hofNat : Float.ofNat n = n.toUInt64.toFloat * Float.exactlyRepresentablePowersOfTen[0] := by
    change Float.ofScientific n false 0 = _
    rw [Float.ofScientific, dif_pos (by omega)]
    rfl
  rw [hofNat]
  rfl

theorem Encodes.mul_one {x : UnpackedFloat} {sign : Sign} {p : Nat} (h : Encodes x sign p) (hp : p < 2045 * 2 ^ 52) :
    Encodes (UnpackedFloat.mul Format.binary64 x (Float.Model.ofBits 4607182418800017408).unpack) sign p := by
  obtain ⟨n, e, hn, rfl, hlow, hhigh, hmin, -, hpe⟩ := h
  have hmul : UnpackedFloat.mul Format.binary64 (.finite sign n e hn) (Float.Model.ofBits 4607182418800017408).unpack =
      roundWithAccuracy Format.binary64 sign (n * 2 ^ 52) (e + -52) .exact := by
    cases sign <;> rfl
  rw [hmul]
  refine encodes_roundWithAccuracy (s := 52) sign (by omega) ?_ (by omega) (by omega) ?_
  · rw [log2_mul_two_pow hn.ne', log2_eq hlow hhigh]
  · rw [roundOff_exact]
    omega

theorem roundOff_place {n : Nat} (hn : n ≠ 0) (h : n < 2 ^ 53) :
    roundOff (n * 2 ^ 53) (n.log2 + 1) = n * 2 ^ (52 - n.log2) := by
  have hl : n.log2 < 53 := (Nat.log2_lt hn).mpr h
  have hsplit : n * 2 ^ 53 = n * 2 ^ (52 - n.log2) * 2 ^ (n.log2 + 1) := by
    rw [Nat.mul_assoc, ← Nat.pow_add]
    congr 2
    omega
  rw [hsplit, roundOff_exact]

theorem encodes_ofUInt64 {n : Nat} (hn : n ≠ 0) (h : n < 2 ^ 53) :
    Encodes (UnpackedFloat.ofUInt64 Format.binary64 n.toUInt64) .positive (place n) := by
  have hl : n.log2 < 53 := (Nat.log2_lt hn).mpr h
  have hto : n.toUInt64.toNat = n := by
    rw [UInt64.toNat_ofNat']
    omega
  have hround : UnpackedFloat.ofUInt64 Format.binary64 n.toUInt64 =
      roundWithAccuracy Format.binary64 .positive (n * 2 ^ (52 - n.log2)) (n.log2 - 52) .exact := by
    have hshift : (0 - Format.binary64.targetExponent (totalExponent n 0)).toNat = 52 - n.log2 := by
      simp only [Format.targetExponent, totalExponent, Format.mantissaBits, Format.minExponent]
      omega
    have hpos : Ord.compare (n : Int) 0 = .gt := Int.compare_eq_gt.mpr (by omega)
    simp only [UnpackedFloat.ofUInt64, UnpackedFloat.ofNat, UnpackedFloat.ofInt, UnpackedFloat.normalize, hto, hpos,
      Int.toNat_natCast, UnpackedFloat.round, decreaseExponent, hshift, Nat.shiftLeft_eq]
    congr 1
    omega
  rw [hround]
  refine encodes_roundWithAccuracy (s := 0) .positive (by positivity) ?_ (by omega) (by omega) ?_
  · rw [log2_mul_two_pow hn]
    omega
  · have := roundOff_exact (n * 2 ^ (52 - n.log2)) 0
    rw [pow_zero, Nat.mul_one] at this
    rw [this, place, if_neg hn, roundOff_place hn h]
    push_cast
    omega

theorem encodes_ofNat {n : Nat} (hn : n ≠ 0) (hmax : n < 2 ^ 64) :
    ∃ x, (Float.ofNat n).toModel = Float.Model.pack x ∧ Encodes x .positive (place n) := by
  have hlog : n.log2 < 64 := (Nat.log2_lt hn).mpr hmax
  rcases Nat.lt_or_ge n (2 ^ 53) with hsmall | hlarge
  · refine ⟨_, toModel_ofNat_small hsmall, ?_⟩
    have h := encodes_ofUInt64 hn hsmall
    change Encodes (UnpackedFloat.mul Format.binary64 (Float.Model.pack _).unpack _) _ _
    rw [h.unpack_pack]
    exact h.mul_one (by have := (place_bounds hn).2; omega)
  · refine ⟨_, toModel_ofNat_large hlarge, ?_⟩
    have hl : n.log2 ≥ 53 := (Nat.le_log2 hn).mpr hlarge
    refine encodes_roundWithAccuracy (s := n.log2 + 1) .positive ?_ ?_ ?_ ?_ ?_
    · positivity
    · rw [log2_mul_two_pow hn]
      omega
    · omega
    · omega
    · rw [place, if_neg hn]
      push_cast
      omega

theorem bits_ofFloat {x : UnpackedFloat} {sign : Sign} {p : Nat} {f : Float} (hf : f.toModel = Float.Model.pack x)
    (h : Encodes x sign p) : (ofFloat f).bits.toNat = sign.toBitVec.toNat * 2 ^ 63 + p := by
  have hnan : f.isNaN = false := by
    rw [Float.isNaN, hf, Float.Model.isNaN, h.unpack_pack]
    obtain ⟨n, e, hn, rfl, -⟩ := h
    rfl
  rw [ofFloat, hnan, if_neg Bool.false_ne_true]
  change f.toModel.toBits.toNat = _
  rw [hf]
  exact h.toNat_pack

theorem isNaN_of_bits {x : Binary64} {b p : Nat} (hp : p < 2047 * 2 ^ 52) (h : x.bits.toNat = b * 2 ^ 63 + p) :
    x.isNaN = false := by
  have he : x.exponentBits = p / 2 ^ 52 := by
    have hmask : x.exponentBits = x.bits.toNat / 2 ^ 52 % 2 ^ 11 := by
      simp only [exponentBits, UInt64.toNat_and, UInt64.toNat_shiftRight]
      exact (Nat.and_two_pow_sub_one_eq_mod _ 11).trans (by rw [Nat.shiftRight_eq_div_pow]; rfl)
    omega
  have hne : x.exponentBits ≠ 2047 := by omega
  simp [isNaN, hne]

theorem magnitude_of_bits {x : Binary64} {b p : Nat} (hp : p < 2 ^ 63) (h : x.bits.toNat = b * 2 ^ 63 + p) :
    x.magnitude = p := by
  have hmask : x.magnitude = x.bits.toNat % 2 ^ 63 := by
    simp only [magnitude, UInt64.toNat_and]
    exact Nat.and_two_pow_sub_one_eq_mod _ 63
  omega

theorem isNegative_of_bits {x : Binary64} {b p : Nat} (hp : p < 2 ^ 63) (h : x.bits.toNat = b * 2 ^ 63 + p) :
    x.isNegative = (b == 1) := by
  have hshift : (x.bits >>> 63).toNat = b := by
    rw [UInt64.toNat_shiftRight, Nat.shiftRight_eq_div_pow, h]
    change (b * 2 ^ 63 + p) / 2 ^ 63 = b
    omega
  rw [isNegative, ← hshift, Bool.eq_iff_iff, beq_iff_eq, beq_iff_eq, ← UInt64.toNat_inj]
  rfl

theorem Encodes.ofFloat {x : UnpackedFloat} {sign : Sign} {p : Nat} {f : Float} (h : Encodes x sign p)
    (hp : p < 2047 * 2 ^ 52) (hf : f.toModel = Float.Model.pack x) :
    (Binary64.ofFloat f).isNaN = false ∧ (Binary64.ofFloat f).rank = sign.apply (p : Int) := by
  have hbits := bits_ofFloat hf h
  refine ⟨isNaN_of_bits hp hbits, ?_⟩
  have hp' : p < 2 ^ 63 := by omega
  rw [rank, magnitude_of_bits hp' hbits, isNegative_of_bits hp' hbits]
  cases sign <;> rfl

/-- Where the number next to a whole number stands. -/
theorem rank_ofInt {i : Int} (h : i.natAbs < 2 ^ 64) :
    (ofInt i).isNaN = false ∧ (ofInt i).rank = if i < 0 then -(place i.natAbs : Int) else place i.natAbs := by
  have hplace : ∀ n : Nat, n ≠ 0 → n < 2 ^ 64 → place n < 2047 * 2 ^ 52 := fun n hn hmax => by
    have hlog : n.log2 < 64 := (Nat.log2_lt hn).mpr hmax
    have := (place_bounds hn).2
    omega
  cases i with
  | ofNat n =>
    by_cases hn : n = 0
    · subst hn
      exact ⟨rfl, rfl⟩
    · obtain ⟨x, hx, henc⟩ := encodes_ofNat hn h
      exact henc.ofFloat (hplace n hn h) hx
  | negSucc n =>
    obtain ⟨x, hx, henc⟩ := encodes_ofNat (Nat.succ_ne_zero n) h
    have hneg : (Float.ofInt (.negSucc n)).toModel = Float.Model.pack x.neg := by
      change Float.Model.pack (Float.ofNat n.succ).toModel.unpack.neg = _
      rw [hx, henc.unpack_pack]
    rw [if_pos (Int.negSucc_lt_zero n)]
    exact henc.neg.ofFloat (hplace _ (Nat.succ_ne_zero n) h) hneg

/-- Rounding keeps the order, although not every difference. -/
theorem rank_ofInt_mono {i j : Int} (hi : i.natAbs < 2 ^ 64) (hj : j.natAbs < 2 ^ 64) (h : i ≤ j) :
    (ofInt i).rank ≤ (ofInt j).rank := by
  rw [(rank_ofInt hi).2, (rank_ofInt hj).2]
  split <;> split
  · have := place_mono (show j.natAbs ≤ i.natAbs by omega)
    omega
  · omega
  · omega
  · have := place_mono (show i.natAbs ≤ j.natAbs by omega)
    omega

end Provenance.Binary64

import Resampler.Proofs.Binary64.Order

/-!
Doubles as integers.

Rounding a double to an integer goes by its bits. The parts that it reads from them are those that
the double is unpacked into (`exists_dyadic`), so that the outcome is the floor or the ceiling of
the number that the double is, or an integer no farther from it than a half.
-/

namespace Resampler.Binary64

open Float.Model (Format UnpackedFloat)
open Float.Model.UnpackedFloat

theorem toNat_unpackExponent (b : BitVec 64) :
    (@unpackExponent Format.binary64 b).toNat = b.toNat / 4503599627370496 % 2048 := by
  change (BitVec.cast _ (b.extractLsb 62 52)).toNat = _
  rw [BitVec.toNat_cast, BitVec.extractLsb_toNat, Nat.shiftRight_eq_div_pow]

theorem toNat_unpackMantissa (b : BitVec 64) :
    (@unpackMantissa Format.binary64 b).toNat = b.toNat % 4503599627370496 := by
  change (BitVec.cast _ (b.extractLsb 51 0)).toNat = _
  rw [BitVec.toNat_cast, BitVec.extractLsb_toNat, Nat.shiftRight_zero]

theorem ofBitVec_unpackSign (b : BitVec 64) : Sign.ofBitVec (@unpackSign Format.binary64 b) =
    if b.toNat < 9223372036854775808 then .positive else .negative := by
  have hsign : (@unpackSign Format.binary64 b).toNat = b.toNat / 9223372036854775808 := by
    change (BitVec.cast _ (b.extractLsb 63 63)).toNat = _
    have := b.isLt
    rw [BitVec.toNat_cast, BitVec.extractLsb_toNat, Nat.shiftRight_eq_div_pow]
    omega
  unfold Sign.ofBitVec
  refine if_congr ?_ rfl rfl
  rw [← BitVec.toNat_inj, hsign]
  change _ = 0 ↔ _
  omega

/-- A sign as a factor. -/
def factor : Sign → ℤ
  | .positive => 1
  | .negative => -1

theorem signed_eq_factor (s : Sign) (r : ℝ) : signed s r = (factor s * r : ℝ) := by
  cases s
  · simp [signed, factor]
  · simp [signed, factor]

/-- The parts that a double is rounded to an integer by are those that it is unpacked into. -/
theorem exists_dyadic {x : Float} {v : ℝ} (hx : Is x v) :
    ∃ d, dyadic? x = some d ∧ v = d.mantissa * 2 ^ d.exponent := by
  set b := x.toModel.toBits.toBitVec with hb
  have hexponent := toNat_unpackExponent b
  have hmantissa := toNat_unpackMantissa b
  have hsign := ofBitVec_unpackSign b
  have hbits : x.toBits.toNat = b.toNat := rfl
  set sign := Sign.ofBitVec (@unpackSign Format.binary64 b) with hs
  have hfactor : (if b.toNat < 9223372036854775808 then (1 : ℤ) else -1) = factor sign := by
    rw [hsign]
    split <;> rfl
  change valueOf? (unpack Format.binary64 b) = _ at hx
  simp only [unpack, exponentBias_eq, ← hs] at hx
  simp only [dyadic?, hbits, hidden, ← hexponent, ← hmantissa, hfactor]
  split at hx
  case isTrue hones =>
    exfalso
    split at hx
    · cases hsig : sign <;> rw [hsig] at hx <;> cases hx
    · cases hx
  case isFalse hones =>
    have hones' : (@unpackExponent Format.binary64 b).toNat ≠ 2047 := fun heq =>
      hones (BitVec.eq_of_toNat_eq heq)
    rw [if_neg hones']
    split at hx
    case isTrue hzeros =>
      have hzeros' : (@unpackExponent Format.binary64 b).toNat = 0 := by
        rw [hzeros]
        rfl
      rw [if_pos hzeros']
      refine ⟨_, rfl, ?_⟩
      split at hx
      case isTrue hzero =>
        have hv : (0 : ℝ) = v := EReal.coe_eq_coe_iff.mp (Option.some.inj hx)
        rw [hzero]
        simp [← hv]
      case isFalse =>
        rw [valueOf?, signed_eq_factor, Option.some.injEq, EReal.coe_eq_coe_iff, hzeros'] at hx
        rw [← hx, Int.cast_mul, Int.cast_natCast, mul_assoc]
        rfl
    case isFalse hzeros =>
      have hzeros' : (@unpackExponent Format.binary64 b).toNat ≠ 0 := fun heq =>
        hzeros (BitVec.eq_of_toNat_eq heq)
      rw [if_neg hzeros']
      refine ⟨_, rfl, ?_⟩
      rw [valueOf?, signed_eq_factor, Option.some.injEq, EReal.coe_eq_coe_iff,
        toNat_append_one] at hx
      rw [← hx, Int.cast_mul, Int.cast_natCast, mul_assoc]
      rfl

theorem Dyadic.floor_eq (d : Dyadic) : d.floor = ⌊(d.mantissa * 2 ^ d.exponent : ℝ)⌋ := by
  unfold floor
  split
  case isTrue hexp =>
    have hwhole : (d.mantissa * 2 ^ d.exponent : ℝ) = (d.mantissa * 2 ^ d.exponent.toNat : ℤ) := by
      conv_lhs => rw [← Int.toNat_of_nonneg hexp, zpow_natCast]
      push_cast
      rfl
    rw [hwhole, Int.floor_intCast]
    rfl
  case isFalse hexp =>
    have hquotient : (d.mantissa * 2 ^ d.exponent : ℝ) =
        d.mantissa / (2 ^ (-d.exponent).toNat : ℕ) := by
      have hneg : d.exponent = -((-d.exponent).toNat : ℤ) := by omega
      conv_lhs => rw [hneg, zpow_neg, zpow_natCast]
      push_cast
      rfl
    rw [hquotient, Int.floor_div_natCast, Int.floor_intCast]
    push_cast
    rfl

theorem Dyadic.ceil_eq (d : Dyadic) : d.ceil = ⌈(d.mantissa * 2 ^ d.exponent : ℝ)⌉ := by
  rw [ceil, floor_eq, neg, Int.cast_neg, neg_mul, Int.floor_neg, neg_neg]

/-- Rounding a number that is not negative to an integer at most doubles it. -/
theorem Dyadic.round_bounds (d : Dyadic) (h : 0 ≤ d.mantissa) :
    0 ≤ d.round ∧ (d.round : ℝ) ≤ 2 * (d.mantissa * 2 ^ d.exponent) := by
  rw [round, if_pos h, round.half]
  split
  case isTrue hexp =>
    have hwhole : (d.mantissa * 2 ^ d.exponent : ℝ) = (d.mantissa * 2 ^ d.exponent.toNat : ℤ) := by
      conv_lhs => rw [← Int.toNat_of_nonneg hexp, zpow_natCast]
      push_cast
      rfl
    have hpos : 0 ≤ d.mantissa * 2 ^ d.exponent.toNat := by positivity
    rw [hwhole]
    refine ⟨hpos, ?_⟩
    have hcast : (0 : ℝ) ≤ (d.mantissa * 2 ^ d.exponent.toNat : ℤ) := by exact_mod_cast hpos
    change ((d.mantissa * 2 ^ d.exponent.toNat : ℤ) : ℝ) ≤ _
    linarith
  case isFalse hexp =>
    have hneg : d.exponent = -((-d.exponent).toNat : ℤ) := by omega
    set k := (-d.exponent).toNat
    have hpow : (0 : ℤ) < 2 ^ k := by positivity
    set q := (2 * d.mantissa + 2 ^ k) / 2 ^ (k + 1) with hq
    have hqpos : 0 ≤ q := Int.ediv_nonneg (by positivity) (by positivity)
    have hqle : q * 2 ^ (k + 1) ≤ 2 * d.mantissa + 2 ^ k := Int.ediv_mul_le _ (by positivity)
    refine ⟨hqpos, ?_⟩
    -- what is not rounded to zero is a half at least
    have hdouble : q * 2 ^ k ≤ 2 * d.mantissa := by
      rcases hqpos.eq_or_lt with hzero | hone
      · rw [← hzero]
        omega
      · rw [pow_succ] at hqle
        nlinarith
    have hcast : (q : ℝ) * 2 ^ k ≤ 2 * d.mantissa := by exact_mod_cast hdouble
    change (q : ℝ) ≤ _
    rw [hneg, zpow_neg, zpow_natCast, ← div_eq_mul_inv, ← mul_div_assoc, le_div_iff₀ (by positivity)]
    exact hcast

end Resampler.Binary64

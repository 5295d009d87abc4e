import Resampler.Proofs.Binary64.Arithmetic

/-!
Doubles that are no finite numbers.

What is no number stays none in any operation, and there is one double only that is none (`eq_nan`).
Zero divided by zero gives it. A double that is no number or not below zero is `NotNegative`, and
sums, products and quotients of such doubles are so as well.
-/

namespace Resampler.Binary64

open Float.Model (Format UnpackedFloat)
open Float.Model.UnpackedFloat

variable {x y : Float}

theorem value_eq_none_iff : value? x = none ↔ x.toModel.unpack = .notANumber := by
  unfold value?
  cases x.toModel.unpack <;> simp [valueOf?]

theorem isNaN_iff : x.isNaN = true ↔ value? x = none := by
  rw [value_eq_none_iff]
  change x.toModel.unpack.isNaN = true ↔ _
  cases x.toModel.unpack <;> simp [UnpackedFloat.isNaN]

theorem isNaN_eq_false {a : EReal} (h : value? x = some a) : x.isNaN = false :=
  Bool.eq_false_iff.mpr fun hnan => by
    rw [isNaN_iff.mp hnan] at h
    cases h

theorem value_nan : value? (.ofModel (.pack .notANumber)) = none := rfl

theorem nan_add (y : Float) (h : value? x = none) : value? (x + y) = none := by
  have hop : x + y = .ofModel (.pack (add Format.binary64 x.toModel.unpack y.toModel.unpack)) := rfl
  rw [hop, value_eq_none_iff.mp h]
  exact value_nan

theorem add_nan (x : Float) (h : value? y = none) : value? (x + y) = none := by
  have hop : x + y = .ofModel (.pack (add Format.binary64 x.toModel.unpack y.toModel.unpack)) := rfl
  rw [hop, value_eq_none_iff.mp h]
  cases x.toModel.unpack <;> exact value_nan

theorem mul_nan (x : Float) (h : value? y = none) : value? (x * y) = none := by
  have hop : x * y = .ofModel (.pack (mul Format.binary64 x.toModel.unpack y.toModel.unpack)) := rfl
  rw [hop, value_eq_none_iff.mp h]
  cases x.toModel.unpack <;> exact value_nan

theorem div_nan (x : Float) (h : value? y = none) : value? (x / y) = none := by
  have hop : x / y = .ofModel (.pack (div Format.binary64 x.toModel.unpack y.toModel.unpack)) := rfl
  rw [hop, value_eq_none_iff.mp h]
  cases x.toModel.unpack <;> exact value_nan

theorem unpack_of_zero (h : Is x 0) : ∃ s, x.toModel.unpack = .zero s := by
  obtain ⟨s, hu, -⟩ | ⟨m, e, hm, -, -, -, hzero⟩ := unpack_of_nonneg le_rfl h
  · exact ⟨s, hu⟩
  · have hpos : (0 : ℝ) < m * 2 ^ e := by positivity
    linarith

theorem zero_div_zero (hx : Is x 0) (hy : Is y 0) : value? (x / y) = none := by
  have hop : x / y = .ofModel (.pack (div Format.binary64 x.toModel.unpack y.toModel.unpack)) := rfl
  obtain ⟨s, hu⟩ := unpack_of_zero hx
  obtain ⟨s', hv⟩ := unpack_of_zero hy
  rw [hop, hu, hv]
  exact value_nan

/-- There is one double that is no number. -/
theorem eq_nan (h : value? x = none) : x = 0.0 / 0.0 := by
  have hvector : x.toModel.toBits.toBitVec = packedNaN Format.binary64 := by
    have hu : unpack Format.binary64 x.toModel.toBits.toBitVec = .notANumber :=
      value_eq_none_iff.mp h
    simp only [unpack] at hu
    split at hu
    case isTrue hones =>
      split at hu
      · cases hu
      case isFalse hmantissa => exact x.toModel.valid.eq_packedNaN hones hmantissa
    case isFalse =>
      split at hu
      · split at hu <;> cases hu
      · cases hu
  have hbits : x.toModel.toBits = (0.0 / 0.0 : Float).toModel.toBits :=
    UInt64.toBitVec_inj.mp hvector
  obtain ⟨⟨bits, hvalid⟩⟩ := x
  change bits = _ at hbits
  subst hbits
  rfl

theorem unpack_of_top (hx : value? x = some ⊤) : x.toModel.unpack = .infinity .positive := by
  unfold value? at hx
  cases hu : x.toModel.unpack <;> rw [hu] at hx
  case notANumber => cases hx
  case infinity s =>
    cases s
    · exact absurd (Option.some.inj hx) bot_ne_top
    · rfl
  case zero s => exact absurd (Option.some.inj hx) EReal.zero_ne_top
  case finite s m e hm => exact absurd (Option.some.inj hx) (signed_bounds s _).2.ne

theorem value_infinity : value? (.ofModel (.pack (.infinity .positive))) = some ⊤ := by
  change valueOf? (unpack _ (packedInfinity _ .positive)) = _
  rw [unpack_packedInfinity]
  rfl

/-- Infinity stays infinity when it is multiplied by a positive number. -/
theorem top_mul {b : ℝ} (hb : 0 < b) (hx : value? x = some ⊤) (hy : Is y b) :
    value? (x * y) = some ⊤ := by
  have hop : x * y = .ofModel (.pack (mul Format.binary64 x.toModel.unpack y.toModel.unpack)) := rfl
  obtain ⟨s, -, hzero⟩ | ⟨n, f, hn, hv, -, -, -⟩ := unpack_of_nonneg hb.le hy
  · exact absurd hzero hb.ne'
  · rw [hop, unpack_of_top hx, hv]
    exact value_infinity

theorem mul_top {a : ℝ} (ha : 0 < a) (hx : Is x a) (hy : value? y = some ⊤) :
    value? (x * y) = some ⊤ := by
  have hop : x * y = .ofModel (.pack (mul Format.binary64 x.toModel.unpack y.toModel.unpack)) := rfl
  obtain ⟨s, -, hzero⟩ | ⟨n, f, hn, hv, -, -, -⟩ := unpack_of_nonneg ha.le hx
  · exact absurd hzero ha.ne'
  · rw [hop, unpack_of_top hy, hv]
    exact value_infinity

/-! ### Doubles that are not negative -/

/-- The double is no negative number. It may be infinite, or no number at all. -/
def NotNegative (x : Float) : Prop := ∀ a, value? x = some a → 0 ≤ a

theorem Is.notNegative {a : ℝ} (hx : Is x a) (ha : 0 ≤ a) : NotNegative x := fun b hb => by
  obtain rfl : (a : EReal) = b := Option.some.inj (hx.symm.trans hb)
  exact EReal.coe_nonneg.mpr ha

theorem notNegative_of_none (hx : value? x = none) : NotNegative x := fun a ha => by
  rw [hx] at ha
  cases ha

theorem notNegative_of_top (hx : value? x = some ⊤) : NotNegative x := fun a ha => by
  obtain rfl : ⊤ = a := Option.some.inj (hx.symm.trans ha)
  exact le_top

theorem notNegative_of_rounded {a : ℝ} (ha : 0 ≤ a) (h : ∃ w, value? x = some w ∧ Rounded a w) :
    NotNegative x := fun b hb => by
  obtain ⟨w, hw, hrounded⟩ := h
  obtain rfl : w = b := Option.some.inj (hw.symm.trans hb)
  exact hrounded.le_of_ge 0 isDouble_zero ha

theorem NotNegative.cases (hx : NotNegative x) :
    value? x = none ∨ value? x = some ⊤ ∨ ∃ a, Is x a ∧ 0 ≤ a := by
  cases hvalue : value? x with
  | none => exact .inl rfl
  | some b =>
    have hb := hx b hvalue
    rcases eq_or_ne b ⊤ with rfl | htop
    · exact .inr (.inl rfl)
    · have hreal := EReal.coe_toReal htop (EReal.bot_lt_zero.trans_le hb).ne'
      refine .inr (.inr ⟨b.toReal, ?_, EReal.toReal_nonneg hb⟩)
      rw [Is, hvalue, hreal]

/-- The parts of a number that is infinite or finite and not negative. -/
theorem unpack_of_some {a : EReal} (hx : value? x = some a) (ha : 0 ≤ a) :
    x.toModel.unpack = .infinity .positive ∨ (∃ s, x.toModel.unpack = .zero s) ∨
      ∃ m e hm, x.toModel.unpack = .finite .positive m e hm := by
  have hnot : NotNegative x := fun b hb => by
    obtain rfl : a = b := Option.some.inj (hx.symm.trans hb)
    exact ha
  obtain hnone | htop | ⟨r, hr, hpos⟩ := hnot.cases
  · rw [hnone] at hx
    cases hx
  · exact .inl (unpack_of_top htop)
  · obtain ⟨s, hu, -⟩ | ⟨m, e, hm, hu, -⟩ := unpack_of_nonneg hpos hr
    · exact .inr (.inl ⟨s, hu⟩)
    · exact .inr (.inr ⟨m, e, hm, hu⟩)

theorem top_add {b : EReal} (hx : value? x = some ⊤) (hy : value? y = some b) (hb : 0 ≤ b) :
    value? (x + y) = some ⊤ := by
  have hop : x + y = .ofModel (.pack (add Format.binary64 x.toModel.unpack y.toModel.unpack)) := rfl
  obtain hv | ⟨s, hv⟩ | ⟨m, e, hm, hv⟩ := unpack_of_some hy hb <;>
    rw [hop, unpack_of_top hx, hv] <;> exact value_infinity

theorem add_top {a : EReal} (hx : value? x = some a) (ha : 0 ≤ a) (hy : value? y = some ⊤) :
    value? (x + y) = some ⊤ := by
  have hop : x + y = .ofModel (.pack (add Format.binary64 x.toModel.unpack y.toModel.unpack)) := rfl
  obtain hv | ⟨s, hv⟩ | ⟨m, e, hm, hv⟩ := unpack_of_some hx ha <;>
    rw [hop, unpack_of_top hy, hv] <;> exact value_infinity

/-- A sum is no number, or infinite, or one of two finite numbers. -/
theorem NotNegative.add_cases (hx : NotNegative x) (hy : NotNegative y) :
    value? (x + y) = none ∨ value? (x + y) = some ⊤ ∨
      ∃ a b, Is x a ∧ 0 ≤ a ∧ Is y b ∧ 0 ≤ b := by
  obtain hnone | htop | ⟨a, ha, hapos⟩ := hx.cases
  · exact .inl (nan_add y hnone)
  · cases hvalue : value? y with
    | none => exact .inl (add_nan x hvalue)
    | some b => exact .inr (.inl (top_add htop hvalue (hy b hvalue)))
  · obtain hnone | htop | ⟨b, hb, hbpos⟩ := hy.cases
    · exact .inl (add_nan x hnone)
    · exact .inr (.inl (add_top ha (EReal.coe_nonneg.mpr hapos) htop))
    · exact .inr (.inr ⟨a, b, ha, hapos, hb, hbpos⟩)

/-- A finite sum has finite terms. -/
theorem exists_of_add {s : ℝ} (hx : NotNegative x) (hy : NotNegative y) (h : Is (x + y) s) :
    ∃ a b, Is x a ∧ 0 ≤ a ∧ Is y b ∧ 0 ≤ b ∧ Rounded (a + b) s := by
  obtain hnone | htop | ⟨a, b, ha, hapos, hb, hbpos⟩ := hx.add_cases hy
  · cases hnone.symm.trans h
  · exact absurd (Option.some.inj (htop.symm.trans h)) (EReal.coe_ne_top s).symm
  · obtain ⟨w, hw, hrounded⟩ := add_rounded hapos hbpos ha hb
    obtain rfl : w = s := Option.some.inj (hw.symm.trans h)
    exact ⟨a, b, ha, hapos, hb, hbpos, hrounded⟩

theorem NotNegative.add (hx : NotNegative x) (hy : NotNegative y) : NotNegative (x + y) := by
  obtain hnone | htop | ⟨a, b, ha, hapos, hb, hbpos⟩ := hx.add_cases hy
  · exact notNegative_of_none hnone
  · exact notNegative_of_top htop
  · exact notNegative_of_rounded (add_nonneg hapos hbpos) (add_rounded hapos hbpos ha hb)

theorem nan_mul (y : Float) (h : value? x = none) : value? (x * y) = none := by
  have hop : x * y = .ofModel (.pack (mul Format.binary64 x.toModel.unpack y.toModel.unpack)) := rfl
  rw [hop, value_eq_none_iff.mp h]
  exact value_nan

/-- Infinity times a number that is not negative is infinity, or none if the number is zero. -/
theorem NotNegative.mul (hx : NotNegative x) (hy : NotNegative y) : NotNegative (x * y) := by
  have hop : x * y = .ofModel (.pack (UnpackedFloat.mul Format.binary64 x.toModel.unpack
    y.toModel.unpack)) := rfl
  obtain hnone | htop | ⟨a, ha, hapos⟩ := hx.cases
  · exact notNegative_of_none (nan_mul y hnone)
  · cases hvalue : value? y with
    | none => exact notNegative_of_none (mul_nan x hvalue)
    | some b =>
      obtain hv | ⟨s, hv⟩ | ⟨m, e, hm, hv⟩ := unpack_of_some hvalue (hy b hvalue) <;>
        rw [hop, unpack_of_top htop, hv]
      · exact notNegative_of_top value_infinity
      · exact notNegative_of_none value_nan
      · exact notNegative_of_top value_infinity
  · obtain hnone | htop | ⟨b, hb, hbpos⟩ := hy.cases
    · exact notNegative_of_none (mul_nan x hnone)
    · obtain hv | ⟨s, hv⟩ | ⟨m, e, hm, hv⟩ := unpack_of_some ha (EReal.coe_nonneg.mpr hapos) <;>
        rw [hop, unpack_of_top htop, hv]
      · exact notNegative_of_top value_infinity
      · exact notNegative_of_none value_nan
      · exact notNegative_of_top value_infinity
    · exact notNegative_of_rounded (mul_nonneg hapos hbpos) (mul_rounded hapos hbpos ha hb)

/-- What is divided by infinity vanishes, unless it is infinite itself. -/
theorem div_top (hx : NotNegative x) (hy : value? y = some ⊤) :
    value? (x / y) = none ∨ Is (x / y) 0 := by
  have hop : x / y = .ofModel (.pack (div Format.binary64 x.toModel.unpack y.toModel.unpack)) := rfl
  cases hvalue : value? x with
  | none =>
    rw [hop, value_eq_none_iff.mp hvalue]
    exact .inl value_nan
  | some a =>
    obtain hv | ⟨s, hv⟩ | ⟨m, e, hm, hv⟩ := unpack_of_some hvalue (hx a hvalue) <;>
      rw [hop, unpack_of_top hy, hv]
    · exact .inl value_nan
    · exact .inr (value_pack_zero _)
    · exact .inr (value_pack_zero _)

theorem sqrt_top (hx : value? x = some ⊤) : value? x.sqrt = some ⊤ := by
  have hop : x.sqrt = .ofModel (.pack (UnpackedFloat.sqrt Format.binary64 x.toModel.unpack)) := rfl
  rw [hop, unpack_of_top hx]
  exact value_infinity

end Resampler.Binary64

import Resampler.Proofs.Binary64.Order

/-!
The operations on doubles.

Of two numbers that are not negative, each operation is the exact one, rounded (`Rounded`). What is
known of the exact result and can be said with sizes of doubles is then known of the rounded one:
a bound is a bound still, and a size that is one is not changed.
-/

namespace Resampler.Binary64

open Float.Model (Format totalExponent UnpackedFloat)
open Float.Model.UnpackedFloat

/-! ### Rounding to a double -/

/-- The sizes of finite doubles. -/
def IsDouble (y : ℝ) : Prop :=
  ∃ (m : ℕ) (e : ℤ), m < 2 ^ 53 ∧ -1074 ≤ e ∧ e ≤ 971 ∧ y = m * 2 ^ e

/-- `w` is the size of a double that is nearest to `x`, or infinity where that is out of range. -/
inductive Rounded (x : ℝ) : EReal → Prop
  | finite {v : ℝ} (h : RoundsTo x v) (hv : v < 2 ^ (1024 : ℤ)) : Rounded x v
  | top {v : ℝ} (h : RoundsTo x v) (hv : 2 ^ (1024 : ℤ) ≤ v) : Rounded x ⊤

section

variable {s : Sign} {x y : ℝ} {w : EReal} {m : ℕ} {e : ℤ}

theorem isDouble_zero : IsDouble 0 := ⟨0, 0, by norm_num, by norm_num, by norm_num, by simp⟩

theorem isDouble_one : IsDouble 1 := ⟨1, 0, by norm_num, by norm_num, by norm_num, by simp⟩

theorem isDouble_natCast {n : ℕ} (hn : n < 2 ^ 53) : IsDouble n :=
  ⟨n, 0, hn, by norm_num, by norm_num, by simp⟩

theorem isDouble_zpow (hlo : -1074 ≤ e) (hhi : e ≤ 971) : IsDouble (2 ^ e) :=
  ⟨1, e, by norm_num, hlo, hhi, by simp⟩

theorem IsDouble.nonneg (h : IsDouble x) : 0 ≤ x := by
  obtain ⟨m, e, -, -, -, rfl⟩ := h
  positivity

theorem IsDouble.lt (h : IsDouble x) : x < 2 ^ (1024 : ℤ) := by
  obtain ⟨m, e, hm, -, he, rfl⟩ := h
  have hm' : (m : ℝ) < 2 ^ 53 := by exact_mod_cast hm
  calc (m : ℝ) * 2 ^ e < 2 ^ 53 * 2 ^ e := by gcongr
    _ ≤ 2 ^ 53 * 2 ^ (971 : ℤ) := by gcongr; exact one_le_two
    _ = 2 ^ (1024 : ℤ) := by rw [← zpow_natCast, ← zpow_add₀ two_ne_zero]; congr 1

theorem Rounded.le_of_le (h : Rounded x w) (y : ℝ) (hy : IsDouble y) (hle : x ≤ y) : w ≤ y := by
  have hlt := hy.lt
  obtain ⟨m, e, hm, he, -, rfl⟩ := hy
  cases h with
  | finite h => exact EReal.coe_le_coe_iff.mpr (h.le_of_le m e hm he hle)
  | top h hv => exact absurd ((h.le_of_le m e hm he hle).trans_lt hlt) hv.not_gt

theorem Rounded.le_of_ge (h : Rounded x w) (y : ℝ) (hy : IsDouble y) (hge : y ≤ x) : y ≤ w := by
  obtain ⟨m, e, hm, he, -, rfl⟩ := hy
  cases h with
  | finite h => exact EReal.coe_le_coe_iff.mpr (h.le_of_ge m e hm he hge)
  | top => exact le_top

theorem Rounded.roundsTo (h : Rounded x w) (v : ℝ) (hv : w = v) : RoundsTo x v := by
  cases h with
  | finite h =>
    obtain rfl := EReal.coe_eq_coe_iff.mp hv
    exact h
  | top => cases hv

/-- Rounding keeps the order. -/
theorem Rounded.le_of_lt {w' : EReal} (h : Rounded x w) (h' : Rounded y w') (hlt : x < y) :
    w ≤ w' := by
  cases h' with
  | top => exact le_top
  | finite h' hv' =>
    cases h with
    | finite h => exact EReal.coe_le_coe_iff.mpr (h.le_of_lt h' hlt)
    | top h hv => exact absurd ((h.le_of_lt h' hlt).trans_lt hv') hv.not_gt

/-- A size that is one is not rounded. -/
theorem Rounded.eq (h : Rounded x w) (hx : IsDouble x) : w = x :=
  le_antisymm (h.le_of_le x hx le_rfl) (h.le_of_ge x hx le_rfl)

theorem rounded_self (hx : IsDouble x) : Rounded x x := by
  refine .finite ⟨?_, fun n f _ _ => ?_⟩ hx.lt
  · obtain ⟨m, e, hm, he, -, rfl⟩ := hx
    exact ⟨m, e, hm, he, rfl⟩
  · rw [sub_self, abs_zero]
    exact abs_nonneg _

/-- Between sizes of doubles, rounding stays between them. -/
theorem Rounded.exists_between {lo hi : ℝ} (h : Rounded x w) (hlo : IsDouble lo) (hhi : IsDouble hi)
    (hle : lo ≤ x) (hge : x ≤ hi) : ∃ v : ℝ, w = v ∧ lo ≤ v ∧ v ≤ hi :=
  exists_real (h.le_of_ge lo hlo hle) (h.le_of_le hi hhi hge)

/-- What is packed is rounded already, and beyond the range it becomes an infinity. -/
theorem exists_rounded {u : UnpackedFloat} (h : ∃ v, Settled s v u ∧ RoundsTo x v) :
    ∃ w, value? (.ofModel (.pack u)) = some (signed s w) ∧ Rounded x w := by
  obtain ⟨v, hsettled, hrounds⟩ := h
  cases hsettled with
  | zero =>
    refine ⟨(0 : ℝ), ?_, .finite hrounds (by positivity)⟩
    change valueOf? (unpack _ (packedZero _ s)) = _
    rw [unpack_packedZero]
    cases s <;> simp [valueOf?, signed]
  | @finite m e htight hm =>
    rcases le_or_gt e 971 with he | he
    · refine ⟨_, ?_, .finite hrounds (IsDouble.lt ⟨m, e, by exact_mod_cast htight.lt,
        htight.le_exponent, he, rfl⟩)⟩
      change valueOf? (unpack _ (pack _ _)) = _
      rw [unpack_pack_finite s htight hm he]
      rfl
    · refine ⟨⊤, ?_, .top hrounds ?_⟩
      · change valueOf? (unpack _ (pack _ _)) = _
        rw [unpack_pack_of_large s hm he]
        rfl
      · calc (2 : ℝ) ^ (1024 : ℤ) = 2 ^ 52 * 2 ^ (972 : ℤ) := by
              rw [← zpow_natCast, ← zpow_add₀ two_ne_zero]
              congr 1
          _ ≤ m * 2 ^ e := by
            gcongr
            · exact htight.full.resolve_left (by omega)
            · exact one_le_two
            · omega

end

/-! ### The single operations -/

section

variable {x y : Float} {a b : ℝ} {s : Sign}

/-- A number with a given sign is a zero or has that sign when it is unpacked. -/
theorem unpack_of_signed (ha : 0 ≤ a) (hx : value? x = some (signed s a)) :
    (∃ s', x.toModel.unpack = .zero s' ∧ a = 0) ∨
      ∃ m e hm, x.toModel.unpack = .finite s m e hm ∧ Tight m e ∧ e ≤ 971 ∧ a = m * 2 ^ e := by
  have hbounds := signed_bounds s a
  unfold value? at hx
  cases hu : x.toModel.unpack <;> rw [hu] at hx
  case notANumber => cases hx
  case infinity s' =>
    rw [← Option.some.inj hx] at hbounds
    cases s'
    · exact absurd hbounds.1 (lt_irrefl _)
    · exact absurd hbounds.2 (lt_irrefl _)
  case zero s' =>
    refine .inl ⟨s', rfl, ?_⟩
    have hvalue : ((0 : ℝ) : EReal) = signed s a := Option.some.inj hx
    cases s
    · exact neg_eq_zero.mp (EReal.coe_eq_coe_iff.mp hvalue).symm
    · exact (EReal.coe_eq_coe_iff.mp hvalue).symm
  case finite s' m e hm =>
    obtain ⟨htight, he⟩ := tight_of_unpack hu
    have hpos : (0 : ℝ) < m * 2 ^ e := by positivity
    have hvalue := Option.some.inj hx
    cases s <;> cases s'
    · have heq : -((m : ℝ) * 2 ^ e) = -a := EReal.coe_eq_coe_iff.mp hvalue
      exact .inr ⟨m, e, hm, rfl, htight, he, by linarith⟩
    · have heq : (m : ℝ) * 2 ^ e = -a := EReal.coe_eq_coe_iff.mp hvalue
      linarith
    · have heq : -((m : ℝ) * 2 ^ e) = a := EReal.coe_eq_coe_iff.mp hvalue
      linarith
    · have heq : (m : ℝ) * 2 ^ e = a := EReal.coe_eq_coe_iff.mp hvalue
      exact .inr ⟨m, e, hm, rfl, htight, he, heq.symm⟩

theorem unpack_of_nonneg (ha : 0 ≤ a) (hx : Is x a) :
    (∃ s, x.toModel.unpack = .zero s ∧ a = 0) ∨
      ∃ m e hm, x.toModel.unpack = .finite .positive m e hm ∧ Tight m e ∧ e ≤ 971 ∧ a = m * 2 ^ e :=
  unpack_of_signed ha hx

theorem Is.isDouble (ha : 0 ≤ a) (hx : Is x a) : IsDouble a := by
  obtain ⟨s, -, rfl⟩ | ⟨m, e, hm, -, htight, he, rfl⟩ := unpack_of_nonneg ha hx
  · exact isDouble_zero
  · exact ⟨m, e, by exact_mod_cast htight.lt, htight.le_exponent, he, rfl⟩

theorem value_pack_zero (s : Sign) : value? (.ofModel (.pack (.zero s))) = some 0 := by
  change valueOf? (unpack _ (packedZero _ s)) = _
  rw [unpack_packedZero]
  rfl

theorem value_pack_finite {m : ℕ} {e : ℤ} (s : Sign) (h : Tight m e) (hm : 0 < m) (he : e ≤ 971) :
    value? (.ofModel (.pack (.finite s m e hm))) = some (signed s (m * 2 ^ e : ℝ)) := by
  change valueOf? (unpack _ (pack _ _)) = _
  rw [unpack_pack_finite s h hm he]
  rfl

theorem neg_value (ha : 0 ≤ a) (hx : Is x a) : value? (-x) = some (signed .negative a) := by
  have hop : -x = .ofModel (.pack x.toModel.unpack.neg) := rfl
  obtain ⟨s, hu, rfl⟩ | ⟨m, e, hm, hu, htight, he, rfl⟩ := unpack_of_nonneg ha hx
  · rw [hop, hu]
    exact (value_pack_zero (-s)).trans (by simp [signed])
  · rw [hop, hu]
    exact value_pack_finite .negative htight hm he

theorem add_rounded (ha : 0 ≤ a) (hb : 0 ≤ b) (hx : Is x a) (hy : Is y b) :
    ∃ w, value? (x + y) = some w ∧ Rounded (a + b) w := by
  have hop : x + y = .ofModel (.pack (add Format.binary64 x.toModel.unpack y.toModel.unpack)) := rfl
  obtain ⟨s, hu, rfl⟩ | ⟨m, e, hm, hu, htight, he, rfl⟩ := unpack_of_nonneg ha hx <;>
    obtain ⟨s', hv, rfl⟩ | ⟨n, f, hn, hv, htight', hf, rfl⟩ := unpack_of_nonneg hb hy <;>
    rw [hop, hu, hv]
  · rw [add_zero]
    refine ⟨0, ?_, rounded_self isDouble_zero⟩
    cases s <;> cases s' <;> exact value_pack_zero _
  · rw [zero_add]
    exact ⟨_, value_pack_finite .positive htight' hn hf, rounded_self (hy.isDouble hb)⟩
  · rw [add_zero]
    exact ⟨_, value_pack_finite .positive htight hm he, rounded_self (hx.isDouble ha)⟩
  · -- both mantissas are brought to the lesser exponent, where they add up exactly
    set low := min e f with hlow
    set k := (e - low).toNat with hk
    set k' := (f - low).toNat with hk'
    have hpos : 0 < m <<< k + n <<< k' := by
      rw [Nat.shiftLeft_eq]
      positivity
    have hsum : (m : ℝ) * 2 ^ e + n * 2 ^ f = (m <<< k + n <<< k' : ℕ) * 2 ^ low := by
      have hexp : e = k + low := by omega
      have hexp' : f = k' + low := by omega
      rw [hexp, hexp', zpow_add₀ two_ne_zero, zpow_add₀ two_ne_zero, zpow_natCast, zpow_natCast,
        Nat.shiftLeft_eq, Nat.shiftLeft_eq]
      push_cast
      ring
    have hadd : add Format.binary64 (.finite .positive m e hm) (.finite .positive n f hn) =
        UnpackedFloat.round Format.binary64 .positive (m <<< k + n <<< k') low := by
      change UnpackedFloat.normalize _ ((m <<< k : ℕ) + (n <<< k' : ℕ) : ℤ) low .positive = _
      rw [UnpackedFloat.normalize, ← Nat.cast_add, compare_gt_iff_gt.mpr (by exact_mod_cast hpos)]
      rfl
    rw [hadd, hsum]
    exact exists_rounded (exists_settled_round .positive hpos low)

theorem sub_self_value (ha : 0 ≤ a) (hx : Is x a) : Is (x - x) 0 := by
  have hop : x - x = .ofModel (.pack (sub Format.binary64 x.toModel.unpack x.toModel.unpack)) := rfl
  obtain ⟨s, hu, rfl⟩ | ⟨m, e, hm, hu, htight, he, rfl⟩ := unpack_of_nonneg ha hx
  · rw [Is, hop, hu]
    cases s <;> exact value_pack_zero _
  · have hsub : sub Format.binary64 (.finite .positive m e hm) (.finite .positive m e hm) =
        .zero .positive := by
      change UnpackedFloat.normalize _ ((m <<< _ : ℕ) - (m <<< _ : ℕ) : ℤ) _ .positive = _
      rw [sub_self]
      rfl
    rw [Is, hop, hu, hsub]
    exact value_pack_zero _

/-- A mantissa without a place to spare is long enough. -/
theorem long_of_full {m : ℕ} {e : ℤ} (h : e ≤ -1074 ∨ 2 ^ 52 ≤ m) :
    e ≤ max ((m.log2 : ℤ) + e - 52) (-1074) := by
  rcases h with h | h
  · exact le_max_of_le_right h
  · have hlog : 52 ≤ m.log2 := (Nat.le_log2 (by omega)).mpr h
    omega

theorem mul_rounded (ha : 0 ≤ a) (hb : 0 ≤ b) (hx : Is x a) (hy : Is y b) :
    ∃ w, value? (x * y) = some w ∧ Rounded (a * b) w := by
  have hop : x * y = .ofModel (.pack (mul Format.binary64 x.toModel.unpack y.toModel.unpack)) := rfl
  obtain ⟨s, hu, rfl⟩ | ⟨m, e, hm, hu, htight, he, rfl⟩ := unpack_of_nonneg ha hx <;>
    obtain ⟨s', hv, rfl⟩ | ⟨n, f, hn, hv, htight', hf, rfl⟩ := unpack_of_nonneg hb hy <;>
    rw [hop, hu, hv]
  · rw [mul_zero]
    exact ⟨0, value_pack_zero _, rounded_self isDouble_zero⟩
  · rw [zero_mul]
    exact ⟨0, value_pack_zero _, rounded_self isDouble_zero⟩
  · rw [mul_zero]
    exact ⟨0, value_pack_zero _, rounded_self isDouble_zero⟩
  · have hexact : Lies ((m * n : ℕ) : ℝ) (m * n) .exact := rfl
    have hfull : e + f ≤ -1074 ∨ 2 ^ 52 ≤ m * n := by
      rcases htight.full with rfl | hfull
      · rcases htight'.full with rfl | hfull'
        · exact .inl (by decide)
        · have hn' : 2 ^ 52 ≤ n := by exact_mod_cast hfull'
          exact .inr (hn'.trans (Nat.le_mul_of_pos_left n hm))
      · have hm' : 2 ^ 52 ≤ m := by exact_mod_cast hfull
        exact .inr (hm'.trans (Nat.le_mul_of_pos_right m hn))
    have hprod : (m : ℝ) * 2 ^ e * (n * 2 ^ f) = (m * n : ℕ) * 2 ^ (e + f) := by
      rw [zpow_add₀ two_ne_zero]
      push_cast
      ring
    rw [hprod]
    exact exists_rounded (exists_settled_roundWithAccuracy .positive hexact (long_of_full hfull))

/-- A quotient lies after its integer part as the remainder tells. -/
theorem lies_div {m n : ℕ} (hn : 0 < n) :
    Lies ((m : ℝ) / n) (m / n) (accuracyOfFraction (m % n) n) := by
  have hn' : (0 : ℝ) < n := Nat.cast_pos.mpr hn
  have hrest : (m % n : ℕ) < (n : ℝ) := by exact_mod_cast Nat.mod_lt m hn
  have hsplit : (m : ℝ) / n = (m / n : ℕ) + (m % n : ℕ) / n := by
    have hparts : ((m % n : ℕ) : ℝ) + n * (m / n : ℕ) = m := by exact_mod_cast Nat.mod_add_div m n
    rw [← hparts]
    field_simp
    ring
  unfold accuracyOfFraction
  split
  case isTrue hzero =>
    rw [hzero, Nat.cast_zero, zero_div, add_zero] at hsplit
    exact hsplit
  case isFalse hzero =>
    have hpos : (0 : ℝ) < (m % n : ℕ) / n :=
      div_pos (Nat.cast_pos.mpr (Nat.pos_of_ne_zero hzero)) hn'
    have hone : ((m % n : ℕ) : ℝ) / n < 1 := (div_lt_one hn').mpr hrest
    rw [hsplit]
    rcases lt_trichotomy (2 * (m % n)) n with h | h | h
    · have hhalf : ((m % n : ℕ) : ℝ) / n < 1 / 2 := by
        rw [div_lt_iff₀ hn']
        have : (2 * (m % n) : ℕ) < (n : ℝ) := by exact_mod_cast h
        push_cast at this
        linarith
      rw [compare_lt_iff_lt.mpr h]
      exact ⟨by linarith, by linarith⟩
    · have hhalf : ((m % n : ℕ) : ℝ) / n = 1 / 2 := by
        rw [div_eq_iff hn'.ne']
        have : (2 * (m % n) : ℕ) = (n : ℝ) := by exact_mod_cast h
        push_cast at this
        linarith
      rw [compare_eq_iff_eq.mpr h]
      exact congrArg _ hhalf
    · have hhalf : 1 / 2 < ((m % n : ℕ) : ℝ) / n := by
        rw [lt_div_iff₀ hn']
        have : (n : ℝ) < (2 * (m % n) : ℕ) := by exact_mod_cast h
        push_cast at this
        linarith
      rw [compare_gt_iff_gt.mpr h]
      exact ⟨by linarith, by linarith⟩

/-- The quotient of two mantissas, carried to as many places as a mantissa has. -/
theorem divCore_lies {m n : ℕ} {e f : ℤ} (hm : 0 < m) (hn : 0 < n) :
    ∃ z q low accuracy, divCore Format.binary64 m e n f = (q, low, accuracy) ∧
      Lies z q accuracy ∧ (low ≤ -1074 ∨ 2 ^ 52 ≤ q) ∧
      (m : ℝ) * 2 ^ e / (n * 2 ^ f) = z * 2 ^ low := by
  set low := min (e - f) (Format.binary64.targetExponent (totalExponent m e - totalExponent n f))
    with hlow
  set k := (e - f - low).toNat with hk
  refine ⟨(m <<< k : ℕ) / n, m <<< k / n, low, accuracyOfFraction (m <<< k % n) n, rfl, lies_div hn,
    ?_, ?_⟩
  · rcases le_or_gt low (-1074) with hleast | hleast
    · exact .inl hleast
    · have hmore : m.log2 + k ≥ 53 + n.log2 := by
        simp only [Format.targetExponent, totalExponent, Format.mantissaBits, Format.minExponent]
          at hlow
        norm_num at hlow
        omega
      have hle : 2 ^ 52 * n ≤ m <<< k := by
        calc 2 ^ 52 * n ≤ 2 ^ 52 * 2 ^ (n.log2 + 1) := Nat.mul_le_mul_left _ Nat.lt_log2_self.le
          _ = 2 ^ (53 + n.log2) := by rw [← Nat.pow_add]; congr 1; omega
          _ ≤ 2 ^ (m.log2 + k) := Nat.pow_le_pow_right two_pos hmore
          _ = 2 ^ m.log2 * 2 ^ k := Nat.pow_add ..
          _ ≤ m <<< k := by
            rw [Nat.shiftLeft_eq]
            exact Nat.mul_le_mul_right _ (Nat.log2_self_le hm.ne')
      exact .inr ((Nat.le_div_iff_mul_le hn).mpr hle)
  · have hexp : e = k + low + f := by omega
    rw [hexp, zpow_add₀ two_ne_zero, zpow_add₀ two_ne_zero, zpow_natCast, Nat.shiftLeft_eq]
    have hn' : (n : ℝ) ≠ 0 := Nat.cast_ne_zero.mpr hn.ne'
    push_cast
    field_simp

theorem div_rounded {s : Sign} (ha : 0 ≤ a) (hb : 0 < b) (hx : value? x = some (signed s a))
    (hy : Is y b) : ∃ w, value? (x / y) = some (signed s w) ∧ Rounded (a / b) w := by
  have hop : x / y = .ofModel (.pack (div Format.binary64 x.toModel.unpack y.toModel.unpack)) := rfl
  obtain ⟨s', hu, rfl⟩ | ⟨m, e, hm, hu, htight, he, rfl⟩ := unpack_of_signed ha hx <;>
    obtain ⟨s'', hv, rfl⟩ | ⟨n, f, hn, hv, htight', hf, rfl⟩ := unpack_of_nonneg hb.le hy
  · exact absurd hb (lt_irrefl 0)
  · rw [hop, hu, hv, zero_div]
    refine ⟨0, (value_pack_zero _).trans ?_, rounded_self isDouble_zero⟩
    cases s <;> simp [signed]
  · exact absurd hb (lt_irrefl 0)
  · obtain ⟨z, q, low, accuracy, hcore, hlies, hfull, hvalue⟩ := @divCore_lies m n e f hm hn
    have hdiv : div Format.binary64 (.finite s m e hm) (.finite .positive n f hn) =
        roundWithAccuracy Format.binary64 s q low accuracy := by
      simp only [div, hcore]
      cases s <;> rfl
    rw [hop, hu, hv, hdiv, hvalue]
    exact exists_rounded (exists_settled_roundWithAccuracy s hlies (long_of_full hfull))

/-- A square root lies after its integer part as what is left of the number tells. -/
theorem lies_sqrt (m : ℕ) :
    Lies (√m) m.sqrt (if m - m.sqrt * m.sqrt = 0 then .exact
      else .inexact (if m - m.sqrt * m.sqrt ≤ m.sqrt then .lt else .gt)) := by
  have hroot : (0 : ℝ) ≤ m.sqrt := Nat.cast_nonneg _
  have hlo : m.sqrt * m.sqrt ≤ m := Nat.sqrt_le m
  have hhi : m < (m.sqrt + 1) * (m.sqrt + 1) := Nat.lt_succ_sqrt m
  have hhi' : (m : ℝ) < (m.sqrt + 1) ^ 2 := by
    rw [pow_two]
    exact_mod_cast hhi
  split
  case isTrue hzero =>
    have hsquare : (m : ℝ) = (m.sqrt : ℝ) ^ 2 := by
      rw [pow_two]
      exact_mod_cast le_antisymm (Nat.sub_eq_zero_iff_le.mp hzero) hlo
    exact (congrArg Real.sqrt hsquare).trans (Real.sqrt_sq hroot)
  case isFalse hzero =>
    split
    case isTrue hle =>
      have hmore : ((m.sqrt : ℝ)) ^ 2 < m := by
        rw [pow_two]
        exact_mod_cast (by omega : m.sqrt * m.sqrt < m)
      have hless : (m : ℝ) < (m.sqrt + 1 / 2) ^ 2 := by
        have hle' : (m : ℝ) ≤ m.sqrt * m.sqrt + m.sqrt := by
          exact_mod_cast (by omega : m ≤ m.sqrt * m.sqrt + m.sqrt)
        linarith
      exact ⟨(Real.lt_sqrt hroot).mpr hmore, (Real.sqrt_lt' (by linarith)).mpr hless⟩
    case isFalse hgt =>
      have hmore : ((m.sqrt : ℝ) + 1 / 2) ^ 2 < m := by
        have hgt' : (m.sqrt : ℝ) * m.sqrt + m.sqrt + 1 ≤ m := by
          exact_mod_cast (by omega : m.sqrt * m.sqrt + m.sqrt + 1 ≤ m)
        linarith
      exact ⟨(Real.lt_sqrt (by linarith)).mpr hmore, (Real.sqrt_lt' (by linarith)).mpr hhi'⟩

/-- The root of a mantissa, carried to as many places as a mantissa has. -/
theorem sqrtCore_lies {m : ℕ} (hm : 0 < m) (e : ℤ) :
    ∃ z r low accuracy, sqrtCore Format.binary64 m e = (r, low, accuracy) ∧
      Lies z r accuracy ∧ (low ≤ -1074 ∨ 2 ^ 52 ≤ r) ∧ √(m * 2 ^ e) = z * 2 ^ low := by
  set low := min (e.ediv 2) (Format.binary64.targetExponent ((totalExponent m e + 1).ediv 2))
    with hlow
  set k := (e - 2 * low).toNat with hk
  have hhalf : low ≤ e / 2 := min_le_left _ _
  refine ⟨√(m <<< k : ℕ), (m <<< k).sqrt, low, _, rfl, lies_sqrt (m <<< k), ?_, ?_⟩
  · rcases le_or_gt low (-1074) with hleast | hleast
    · exact .inl hleast
    · have hplaces :
          low ≤ max ((m.log2 + 1 + e + 1) / 2 - (1 + 52 : ℕ)) (3 - 2 ^ 10 - (1 + 52 : ℕ)) :=
        min_le_right _ _
      have hmore : 104 ≤ m.log2 + k := by
        norm_num at hplaces
        omega
      have hle : 2 ^ 52 * 2 ^ 52 ≤ m <<< k := by
        calc 2 ^ 52 * 2 ^ 52 ≤ 2 ^ (m.log2 + k) := by
              rw [← Nat.pow_add]
              exact Nat.pow_le_pow_right two_pos hmore
          _ = 2 ^ m.log2 * 2 ^ k := Nat.pow_add ..
          _ ≤ m <<< k := by
            rw [Nat.shiftLeft_eq]
            exact Nat.mul_le_mul_right _ (Nat.log2_self_le hm.ne')
      exact .inr (Nat.le_sqrt.mpr hle)
  · have hexp : e = k + (low + low) := by omega
    have hpow : (0 : ℝ) ≤ 2 ^ low := by positivity
    have hsquare : (m : ℝ) * 2 ^ e = (m <<< k : ℕ) * (2 ^ low) ^ 2 := by
      rw [hexp, zpow_add₀ two_ne_zero, zpow_add₀ two_ne_zero, zpow_natCast, Nat.shiftLeft_eq]
      push_cast
      ring
    rw [hsquare, Real.sqrt_mul (Nat.cast_nonneg _), Real.sqrt_sq hpow]

theorem sqrt_rounded (ha : 0 ≤ a) (hx : Is x a) :
    ∃ w, value? x.sqrt = some w ∧ Rounded (√a) w := by
  have hop : x.sqrt = .ofModel (.pack (UnpackedFloat.sqrt Format.binary64 x.toModel.unpack)) := rfl
  obtain ⟨s', hu, rfl⟩ | ⟨m, e, hm, hu, htight, he, rfl⟩ := unpack_of_nonneg ha hx
  · rw [hop, hu, Real.sqrt_zero]
    exact ⟨0, value_pack_zero _, rounded_self isDouble_zero⟩
  · obtain ⟨z, r, low, accuracy, hcore, hlies, hfull, hvalue⟩ := sqrtCore_lies hm e
    have hsqrt : UnpackedFloat.sqrt Format.binary64 (.finite .positive m e hm) =
        roundWithAccuracy Format.binary64 .positive r low accuracy := by
      simp only [UnpackedFloat.sqrt, hcore]
    rw [hop, hu, hsqrt, hvalue]
    exact exists_rounded (exists_settled_roundWithAccuracy .positive hlies (long_of_full hfull))

/-- A double whose parts are known. -/
theorem Is.of_unpack {m : ℕ} {e : ℤ} {hm : 0 < m}
    (hu : x.toModel.unpack = .finite .positive m e hm) : Is x (m * 2 ^ e) := by
  rw [Is, value?, hu]
  rfl

/-- Where the exact result is a size of a double, it is the result. -/
theorem Is.of_rounded (h : ∃ w, value? x = some w ∧ Rounded a w) (ha : IsDouble a) : Is x a := by
  obtain ⟨w, hw, hrounded⟩ := h
  rw [Is, hw, hrounded.eq ha]

/-- Where the exact result lies between sizes of doubles, so does what it is rounded to. -/
theorem Is.exists_between {lo hi : ℝ} (h : ∃ w, value? x = some w ∧ Rounded a w) (hlo : IsDouble lo)
    (hhi : IsDouble hi) (hle : lo ≤ a) (hge : a ≤ hi) :
    ∃ v, Is x v ∧ Rounded a v ∧ lo ≤ v ∧ v ≤ hi := by
  obtain ⟨w, hw, hrounded⟩ := h
  obtain ⟨v, rfl, hbetween⟩ := hrounded.exists_between hlo hhi hle hge
  exact ⟨v, hw, hrounded, hbetween⟩

theorem Is.add (ha : 0 ≤ a) (hb : 0 ≤ b) (hx : Is x a) (hy : Is y b) (h : IsDouble (a + b)) :
    Is (x + y) (a + b) := Is.of_rounded (add_rounded ha hb hx hy) h

theorem Is.mul (ha : 0 ≤ a) (hb : 0 ≤ b) (hx : Is x a) (hy : Is y b) (h : IsDouble (a * b)) :
    Is (x * y) (a * b) := Is.of_rounded (mul_rounded ha hb hx hy) h

theorem Is.div (ha : 0 ≤ a) (hb : 0 < b) (hx : Is x a) (hy : Is y b) (h : IsDouble (a / b)) :
    Is (x / y) (a / b) := Is.of_rounded (div_rounded (s := .positive) ha hb hx hy) h

theorem is_zero : Is 0.0 0 := rfl

theorem is_half : Is 0.5 (1 / 2) := by
  have h : Is 0.5 ((4503599627370496 : ℕ) * 2 ^ (-53 : ℤ)) := Is.of_unpack rfl
  norm_num at h
  exact h

theorem is_one : Is 1.0 1 := by
  have h : Is 1.0 ((4503599627370496 : ℕ) * 2 ^ (-52 : ℤ)) := Is.of_unpack unpack_one
  norm_num at h
  exact h

theorem is_two : Is 2.0 2 := by
  have h : Is 2.0 ((4503599627370496 : ℕ) * 2 ^ (-51 : ℤ)) := Is.of_unpack rfl
  norm_num at h
  exact h

/-- A double that is positive and finite is a positive number. -/
theorem exists_is_of_pos (hpos : 0.0 < x) (hfinite : x.isFinite = true) : ∃ v, Is x v ∧ 0 < v := by
  obtain ⟨b, hb, hlt⟩ := exists_value_gt hpos is_zero
  have hunpack : x.toModel.unpack.isFinite = true := hfinite
  obtain ⟨v, rfl⟩ : ∃ v : ℝ, b = v := by
    unfold value? at hb
    cases hu : x.toModel.unpack <;> rw [hu] at hb hunpack <;> cases hb
    case infinity => cases hunpack
    case zero => exact ⟨0, rfl⟩
    case finite sign m e hm =>
      have hbounds := signed_bounds sign (m * 2 ^ e)
      exact ⟨_, (EReal.coe_toReal hbounds.2.ne hbounds.1.ne').symm⟩
  exact ⟨v, hb, EReal.coe_lt_coe_iff.mp hlt⟩

theorem toUInt64_value {n : ℕ} (hn : n < 2 ^ 53) : Is n.toUInt64.toFloat n := by
  have hop : n.toUInt64.toFloat =
      .ofModel (.pack (UnpackedFloat.normalize Format.binary64 n 0 .positive)) := by
    have hword : n.toUInt64.toNat = n := Nat.mod_eq_of_lt (by omega)
    change Float.ofModel (.pack (UnpackedFloat.normalize _ (n.toUInt64.toNat : ℤ) 0 .positive)) = _
    rw [hword]
  rw [hop]
  rcases Nat.eq_zero_or_pos n with rfl | hpos
  · rw [Nat.cast_zero, Nat.cast_zero]
    exact value_pack_zero .positive
  · have hround : UnpackedFloat.normalize Format.binary64 n 0 .positive =
        UnpackedFloat.round Format.binary64 .positive n 0 := by
      rw [UnpackedFloat.normalize, compare_gt_iff_gt.mpr (by exact_mod_cast hpos)]
      rfl
    have hexact := exists_rounded (exists_settled_round .positive hpos 0)
    rw [zpow_zero, mul_one] at hexact
    rw [hround]
    exact Is.of_rounded hexact (isDouble_natCast hn)

/-- Integers of no more places than a mantissa are doubles. -/
theorem ofNat_value {n : ℕ} (hn : n < 2 ^ 53) : Is (Float.ofNat n) n := by
  have hone : Is Float.exactlyRepresentablePowersOfTen[0] 1 := by
    have h : Is Float.exactlyRepresentablePowersOfTen[0] ((4503599627370496 : ℕ) * 2 ^ (-52 : ℤ)) :=
      Is.of_unpack rfl
    norm_num at h
    exact h
  have hop : Float.ofNat n = n.toUInt64.toFloat * Float.exactlyRepresentablePowersOfTen[0] := by
    change Float.ofScientific n false 0 = _
    rw [Float.ofScientific, dif_pos ⟨hn, by decide⟩]
    rfl
  have hproduct := mul_rounded (Nat.cast_nonneg n) zero_le_one (toUInt64_value hn) hone
  rw [mul_one] at hproduct
  rw [hop]
  exact Is.of_rounded hproduct (isDouble_natCast hn)

/-- A sum of numbers between 0 and `2 ^ e`, none of which it falls below. -/
theorem foldl_add_value {xs : List Float} {acc : Float} {a : ℝ} {k : ℕ} {e : ℤ} (hlo : -1074 ≤ e)
    (hhi : e ≤ 971) (hacc : Is acc a) (ha : 0 ≤ a) (hle : a ≤ k * 2 ^ e)
    (hxs : ∀ x ∈ xs, ∃ v, Is x v ∧ 0 ≤ v ∧ v ≤ 2 ^ e) (hlen : k + xs.length < 2 ^ 53) :
    ∃ t, Is (xs.foldl (· + ·) acc) t ∧ a ≤ t ∧ t ≤ (k + xs.length : ℕ) * 2 ^ e ∧
      ∀ x ∈ xs, ∀ v, Is x v → v ≤ t := by
  induction xs generalizing acc a k with
  | nil => exact ⟨a, hacc, le_rfl, hle, by simp⟩
  | cons x xs ih =>
    obtain ⟨v, hv, hvlo, hvhi⟩ := hxs x List.mem_cons_self
    rw [List.length_cons] at hlen ⊢
    have hbound : IsDouble ((k + 1 : ℕ) * 2 ^ e) := ⟨k + 1, e, by omega, hlo, hhi, rfl⟩
    obtain ⟨s, hs, hrounded, hslo, hshi⟩ := Is.exists_between (add_rounded ha hvlo hacc hv)
      (hacc.isDouble ha) hbound (by linarith) (by push_cast; linarith)
    have hvs : v ≤ s := EReal.coe_le_coe_iff.mp
      (hrounded.le_of_ge v (hv.isDouble hvlo) (by linarith))
    obtain ⟨t, ht, htlo, hthi, hall⟩ := ih hs (ha.trans hslo) hshi
      (fun y hy => hxs y (List.mem_cons_of_mem x hy)) (by omega)
    refine ⟨t, ht, hslo.trans htlo, by rwa [show k + (xs.length + 1) = k + 1 + xs.length by omega],
      fun y hy u hu => ?_⟩
    rcases List.mem_cons.mp hy with rfl | hy
    · obtain rfl : v = u := EReal.coe_eq_coe_iff.mp (Option.some.inj (hv.symm.trans hu))
      exact hvs.trans htlo
    · exact hall y hy u hu

end

end Resampler.Binary64

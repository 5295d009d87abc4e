import Resampler.Proofs.Binary64.Arithmetic

/-!
How far doubles are apart.

Doubles of one binade follow each other at a fixed distance, and the smallest of them is `2 ^ 52`
times as large. Rounding moves a number by no more than this distance, so that what is smaller by a
share of `2 ^ -48` is still smaller by one of `2 ^ -50` after it has been rounded
(`Rounded.le_shrunk`), and then still smaller after both have been rounded (`Rounded.lt_of_shrunk`).
A sum of two doubles is moved by a share of `2 ^ -52` at most, however small it is
(`Rounded.abs_sub_le_of_add`), since nothing is lost where doubles are as close as they get.
-/

namespace Resampler.Binary64

variable {x y v : ℝ} {w : EReal}

theorem Rounded.top_or_real (h : Rounded x w) (hx : 0 ≤ x) :
    w = ⊤ ∨ ∃ v : ℝ, w = v ∧ 0 ≤ v := by
  have hlo : ((0 : ℝ) : EReal) ≤ w := h.le_of_ge 0 isDouble_zero hx
  rcases eq_or_ne w ⊤ with htop | htop
  · exact .inl htop
  · have hbot : w ≠ ⊥ := ((EReal.bot_lt_coe 0).trans_le hlo).ne'
    refine .inr ⟨w.toReal, (EReal.coe_toReal htop hbot).symm, ?_⟩
    rw [← EReal.coe_toReal htop hbot] at hlo
    exact EReal.coe_le_coe_iff.mp hlo

/-- A double can be doubled as long as it stays in range. -/
theorem IsDouble.mul_pow (h : IsDouble x) (k : ℕ) (hlt : x * 2 ^ k < 2 ^ 971) :
    IsDouble (x * 2 ^ k) := by
  obtain ⟨m, e, hm, hlo, hhi, rfl⟩ := h
  rcases Nat.eq_zero_or_pos m with rfl | hpos
  · rw [Nat.cast_zero, zero_mul, zero_mul]
    exact isDouble_zero
  · have hexp : (m : ℝ) * 2 ^ e * 2 ^ k = m * 2 ^ (e + k) := by
      rw [zpow_add₀ two_ne_zero, zpow_natCast, mul_assoc]
    rw [hexp] at hlt ⊢
    have hone : (1 : ℝ) ≤ m := by exact_mod_cast hpos
    have hpow : (2 : ℝ) ^ (e + k) < 2 ^ (971 : ℤ) :=
      (le_mul_of_one_le_left (by positivity) hone).trans_lt hlt
    have hle := (zpow_lt_zpow_iff_right₀ one_lt_two).mp hpow
    exact ⟨m, e + k, hm, by omega, hle.le, rfl⟩

/-- There is a least positive double. -/
theorem IsDouble.le_of_pos (h : IsDouble x) (hpos : 0 < x) : 2 ^ (-1074 : ℤ) ≤ x := by
  obtain ⟨m, e, hm, hlo, hhi, rfl⟩ := h
  have hm' : m ≠ 0 := by
    rintro rfl
    simp at hpos
  have hone : (1 : ℝ) ≤ m := by exact_mod_cast Nat.pos_of_ne_zero hm'
  calc (2 : ℝ) ^ (-1074 : ℤ) ≤ 2 ^ e := zpow_le_zpow_right₀ one_le_two hlo
    _ ≤ m * 2 ^ e := le_mul_of_one_le_left (by positivity) hone

/-- A number between powers of two lies between two that follow each other. -/
theorem exists_log {a b : ℤ} (hlo : 2 ^ a ≤ x) (hhi : x ≤ 2 ^ b) :
    ∃ k : ℤ, a ≤ k ∧ k ≤ b ∧ 2 ^ k ≤ x ∧ x < 2 ^ (k + 1) := by
  have hpos : 0 < x := lt_of_lt_of_le (by positivity) hlo
  have hle : (2 : ℝ) ^ Int.log 2 x ≤ x := Int.zpow_log_le_self one_lt_two hpos
  have hlt : x < (2 : ℝ) ^ (Int.log 2 x + 1) := Int.lt_zpow_succ_log_self one_lt_two x
  refine ⟨Int.log 2 x, Int.lt_add_one_iff.mp ?_, ?_, hle, hlt⟩
  · exact (zpow_lt_zpow_iff_right₀ (one_lt_two : (1 : ℝ) < 2)).mp (hlo.trans_lt hlt)
  · exact (zpow_le_zpow_iff_right₀ (one_lt_two : (1 : ℝ) < 2)).mp (hle.trans hhi)

/-- A number lies between two doubles that follow each other, both with a full mantissa. -/
theorem exists_binade (hlo : 2 ^ (-1000 : ℤ) ≤ x) (hhi : x < 2 ^ (900 : ℤ)) :
    ∃ (n : ℕ) (e : ℤ), 2 ^ 52 ≤ n ∧ n < 2 ^ 53 ∧ -1074 ≤ e ∧ e ≤ 900 ∧
      n * 2 ^ e ≤ x ∧ x < (n + 1) * 2 ^ e := by
  obtain ⟨k, hk1, hk2, hle, hlt⟩ := exists_log hlo hhi.le
  have hpos : 0 < x := lt_of_lt_of_le (by positivity) hlo
  have hpow : (0 : ℝ) < 2 ^ (k - 52) := by positivity
  have hunit : (2 : ℝ) ^ k = 2 ^ 52 * 2 ^ (k - 52) := by
    rw [← zpow_natCast, ← zpow_add₀ two_ne_zero]
    congr 1
    push_cast
    ring
  have hunit' : (2 : ℝ) ^ (k + 1) = 2 ^ 53 * 2 ^ (k - 52) := by
    rw [zpow_add₀ two_ne_zero, hunit, zpow_one]
    ring
  have hdiv : 0 ≤ x / 2 ^ (k - 52) := by positivity
  refine ⟨⌊x / 2 ^ (k - 52)⌋₊, k - 52, ?_, ?_, by omega, by omega, ?_, ?_⟩
  · refine Nat.le_floor ?_
    rw [le_div_iff₀ hpow]
    push_cast
    linarith
  · rw [Nat.floor_lt hdiv, div_lt_iff₀ hpow]
    push_cast
    linarith
  · rw [← le_div_iff₀ hpow]
    exact Nat.floor_le hdiv
  · rw [← div_lt_iff₀ hpow]
    exact Nat.lt_floor_add_one _

/-- What is smaller by some distances stays smaller when it is rounded. -/
theorem Rounded.le_shrunk (h : Rounded y w) (hlo : 2 ^ (-1000 : ℤ) ≤ x) (hhi : x < 2 ^ (900 : ℤ))
    (hle : y ≤ x * (1 - 1 / 2 ^ 48)) : w ≤ ((x * (1 - 1 / 2 ^ 50) : ℝ) : EReal) := by
  obtain ⟨n, e, hn, hn', he, he', hbelow, habove⟩ := exists_binade hlo hhi
  have hpow : (0 : ℝ) < 2 ^ e := by positivity
  have hn1 : (2 : ℝ) ^ 52 ≤ n := by exact_mod_cast hn
  have hn2 : (n : ℝ) + 1 ≤ 2 ^ 53 := by exact_mod_cast hn'
  have hdouble : IsDouble ((n - 15 : ℕ) * 2 ^ e) := ⟨n - 15, e, by omega, he, by omega, rfl⟩
  have hcast : ((n - 15 : ℕ) : ℝ) = n - 15 := by rw [Nat.cast_sub (by omega)]; norm_num
  have hbig : x < 2 ^ 53 * 2 ^ e := habove.trans_le (mul_le_mul_of_nonneg_right hn2 hpow.le)
  have hbig' : 2 ^ 52 * 2 ^ e ≤ x := (mul_le_mul_of_nonneg_right hn1 hpow.le).trans hbelow
  refine (h.le_of_le _ hdouble ?_).trans (EReal.coe_le_coe_iff.mpr ?_)
  · rw [hcast]
    linarith
  · rw [hcast]
    linarith

/-- What is smaller by a few distances stays smaller when both are rounded. -/
theorem Rounded.lt_of_shrunk {w' : EReal} (h : Rounded x w) (h' : Rounded y w')
    (hlo : 2 ^ (-1000 : ℤ) ≤ x) (hhi : x < 2 ^ (900 : ℤ)) (hle : y ≤ x * (1 - 1 / 2 ^ 50)) :
    w' < w := by
  obtain ⟨n, e, hn, hn', he, he', hbelow, habove⟩ := exists_binade hlo hhi
  have hpow : (0 : ℝ) < 2 ^ e := by positivity
  have hn1 : (2 : ℝ) ^ 52 ≤ n := by exact_mod_cast hn
  have hcast : ((n - 3 : ℕ) : ℝ) = n - 3 := by rw [Nat.cast_sub (by omega)]; norm_num
  have hbig' : 2 ^ 52 * 2 ^ e ≤ x := (mul_le_mul_of_nonneg_right hn1 hpow.le).trans hbelow
  have hless : w' ≤ (((n - 3 : ℕ) * 2 ^ e : ℝ) : EReal) := by
    refine h'.le_of_le _ ⟨n - 3, e, by omega, he, by omega, rfl⟩ ?_
    rw [hcast]
    linarith
  have hmore : ((n * 2 ^ e : ℝ) : EReal) ≤ w :=
    h.le_of_ge _ ⟨n, e, hn', he, by omega, rfl⟩ hbelow
  refine hless.trans_lt (lt_of_lt_of_le (EReal.coe_lt_coe_iff.mpr ?_) hmore)
  rw [hcast]
  linarith

/-- The least size of a double measures all of them. -/
theorem IsDouble.exists_units (h : IsDouble x) : ∃ k : ℕ, x = k * 2 ^ (-1074 : ℤ) := by
  obtain ⟨m, e, -, hlo, -, rfl⟩ := h
  exact exists_multiple m hlo

/-- The sizes of doubles follow each other in steps of no more than a share of `2 ^ -52`, down to the
least one. -/
theorem RoundsTo.abs_sub_le {k : ℕ} (h : RoundsTo (k * 2 ^ (-1074 : ℤ)) v) :
    |v - k * 2 ^ (-1074 : ℤ)| ≤ k * 2 ^ (-1074 : ℤ) / 2 ^ 52 := by
  have hunit : (0 : ℝ) < 2 ^ (-1074 : ℤ) := by positivity
  rcases lt_or_ge k (2 ^ 53) with hshort | hlong
  · have hnear := h.nearest k (-1074) hshort le_rfl
    rw [sub_self, abs_zero] at hnear
    exact hnear.trans (by positivity)
  · -- the places that do not fit are dropped
    obtain ⟨d, hd⟩ : ∃ d, k.log2 = 52 + d := Nat.exists_eq_add_of_le
      ((Nat.le_log2 (by omega)).mpr ((Nat.pow_le_pow_right two_pos (by norm_num)).trans hlong))
    have hlow : 2 ^ 52 * 2 ^ d ≤ k := by
      rw [← pow_add, ← hd]
      exact Nat.log2_self_le (by omega)
    have hhigh : k < 2 ^ 53 * 2 ^ d := by
      have hlt : k < 2 ^ (k.log2 + 1) := Nat.lt_log2_self
      rwa [hd, show 52 + d + 1 = 53 + d by omega, pow_add] at hlt
    have hnear := h.nearest (k / 2 ^ d) (d - 1074) (Nat.div_lt_of_lt_mul (by rwa [mul_comm]))
      (by omega)
    have hscale : ((k / 2 ^ d : ℕ) : ℝ) * 2 ^ ((d : ℤ) - 1074) =
        ((k / 2 ^ d * 2 ^ d : ℕ) : ℝ) * 2 ^ (-1074 : ℤ) := by
      rw [sub_eq_add_neg, zpow_add₀ two_ne_zero, zpow_natCast]
      push_cast
      ring
    have hle : k / 2 ^ d * 2 ^ d ≤ k := Nat.div_mul_le_self k (2 ^ d)
    have hdropped : |((k / 2 ^ d * 2 ^ d : ℕ) : ℝ) - k| ≤ k / 2 ^ 52 := by
      have hrest : k - k / 2 ^ d * 2 ^ d < 2 ^ d := by
        have := Nat.mod_lt k (Nat.two_pow_pos d)
        have := Nat.div_add_mod' k (2 ^ d)
        omega
      rw [abs_sub_comm, abs_of_nonneg (sub_nonneg.mpr (by exact_mod_cast hle)), ← Nat.cast_sub hle,
        le_div_iff₀ (by positivity)]
      have hproduct : (k - k / 2 ^ d * 2 ^ d) * 2 ^ 52 ≤ k :=
        (Nat.mul_le_mul_right _ hrest.le).trans (by rwa [mul_comm])
      exact_mod_cast hproduct
    rw [hscale, ← sub_mul, abs_mul, abs_of_pos hunit] at hnear
    calc |v - k * 2 ^ (-1074 : ℤ)| ≤ _ := hnear
      _ ≤ k / 2 ^ 52 * 2 ^ (-1074 : ℤ) := by gcongr
      _ = k * 2 ^ (-1074 : ℤ) / 2 ^ 52 := by ring

/-- Adding two doubles loses a share of `2 ^ -52` at most. -/
theorem Rounded.abs_sub_le_of_add {a b : ℝ} (ha : IsDouble a) (hb : IsDouble b)
    (h : Rounded (a + b) v) : |v - (a + b)| ≤ (a + b) / 2 ^ 52 := by
  obtain ⟨m, rfl⟩ := ha.exists_units
  obtain ⟨n, rfl⟩ := hb.exists_units
  have hround := h.roundsTo v rfl
  rw [← add_mul, ← Nat.cast_add] at hround ⊢
  exact hround.abs_sub_le

end Resampler.Binary64

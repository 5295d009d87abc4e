import Resampler.Proofs.Binary64.Rounding

/-!
The numbers that doubles are.

A double is an extended real number, or no number at all (`value?`). It is unpacked into a mantissa
and an exponent, of which there is one pair only that it can be packed with, so that packing loses
nothing, and comparing exponents and mantissas is comparing numbers (`lt_iff_of_value`,
`le_iff_of_value`). The two zeros are one number.
-/

namespace Resampler.Binary64

open Float.Model (Format UnpackedFloat)
open Float.Model.UnpackedFloat

/-! ### Packing -/

@[simp] theorem unpackSign_packComponents {f : Format} (s : Sign) (exponent : BitVec f.exponentBits)
    (mantissa : BitVec f.mantissaBitsWithoutImplicit) :
    unpackSign (packComponents f s exponent mantissa) = s.toBitVec := by
  refine BitVec.eq_of_getLsbD_eq fun i hi => ?_
  obtain rfl : i = 0 := by omega
  simp [unpackSign, packComponents, BitVec.getLsbD_append, BitVec.getElem_append]

@[simp] theorem ofBitVec_toBitVec (s : Sign) : Sign.ofBitVec s.toBitVec = s := by cases s <;> rfl

theorem toNat_append_one (mantissa : BitVec 52) :
    (1#1 ++ mantissa).toNat = 2 ^ 52 + mantissa.toNat := by
  rw [BitVec.toNat_append, ← Nat.shiftLeft_add_eq_or_of_lt mantissa.isLt]
  rfl

theorem exponentBias_eq : Format.binary64.exponentBias = 1023 := rfl

section

variable (s : Sign) (exponent : BitVec 11) (mantissa : BitVec 52)

theorem unpack_packComponents :
    unpack Format.binary64 (packComponents Format.binary64 s exponent mantissa) =
      if exponent = -1#11 then
        if mantissa = 0#52 then .infinity s else .notANumber
      else if exponent = 0#11 then
        if h : mantissa = 0#52 then .zero s
        else .finite s mantissa.toNat (-1074) (by simpa [BitVec.toNat_pos, BitVec.pos_iff_ne_zero])
      else .finite s (2 ^ 52 + mantissa.toNat) (exponent.toNat - 1075) (by omega) := by
  unfold unpack
  simp only [unpackMantissa_packComponents, unpackExponent_packComponents,
    unpackSign_packComponents, ofBitVec_toBitVec, exponentBias_eq]
  split
  · rfl
  · split
    · rename_i h0 h1
      subst h1
      rfl
    · congr 1
      exact toNat_append_one mantissa

end

section

variable (s : Sign) {m : ℕ} {e : ℤ}

theorem pack_finite (hm : 0 < m) : pack Format.binary64 (.finite s m e hm) =
    if 972 ≤ e then packedInfinity Format.binary64 s
    else if m.log2 = 52 then
      packComponents Format.binary64 s (BitVec.ofNat 11 (e + 1075).toNat) (BitVec.ofNat 52 m)
    else packComponents Format.binary64 s 0#11 (BitVec.ofNat 52 m) := by
  have hbias : e + (1023 : ℕ) + (52 : ℕ) = e + 1075 := by omega
  simp only [pack, exponentBias_eq, hbias]
  refine if_congr (by omega) rfl (if_congr ?_ rfl rfl)
  simp only [Format.mantissaBits]
  omega

theorem unpack_packedInfinity :
    unpack Format.binary64 (packedInfinity Format.binary64 s) = .infinity s :=
  (unpack_packComponents s _ _).trans rfl

theorem unpack_packedZero : unpack Format.binary64 (packedZero Format.binary64 s) = .zero s :=
  (unpack_packComponents s _ _).trans rfl

/-- A double that is in range is what it was packed from. -/
theorem unpack_pack_finite (h : Tight m e) (hm : 0 < m) (he : e ≤ 971) :
    unpack Format.binary64 (pack Format.binary64 (.finite s m e hm)) = .finite s m e hm := by
  have hlt : m < 2 ^ 53 := by exact_mod_cast h.lt
  have hlow := h.le_exponent
  rw [pack_finite, if_neg (by omega)]
  by_cases hfull : 2 ^ 52 ≤ m
  · have hlog : m.log2 = 52 := (Nat.log2_eq_iff hm.ne').mpr ⟨hfull, hlt⟩
    have hexponent : (BitVec.ofNat 11 (e + 1075).toNat).toNat = (e + 1075).toNat := by
      rw [BitVec.toNat_ofNat, Nat.mod_eq_of_lt (by omega)]
    have hmantissa : (BitVec.ofNat 52 m).toNat = m - 2 ^ 52 := by
      rw [BitVec.toNat_ofNat]
      omega
    have hones : BitVec.ofNat 11 (e + 1075).toNat ≠ -1#11 := by
      intro heq
      rw [heq] at hexponent
      have : (-1#11).toNat = 2047 := rfl
      omega
    have hzeros : BitVec.ofNat 11 (e + 1075).toNat ≠ 0#11 := by
      intro heq
      rw [heq] at hexponent
      have : (0#11).toNat = 0 := rfl
      omega
    rw [if_pos hlog, unpack_packComponents, if_neg hones, if_neg hzeros]
    congr 1
    · rw [hmantissa]
      omega
    · rw [hexponent]
      omega
  · have hleast : e = -1074 := h.full.resolve_right fun hle => hfull (by exact_mod_cast hle)
    have hlog : m.log2 ≠ 52 := by
      have := (Nat.log2_lt hm.ne').mpr (Nat.lt_of_not_le hfull)
      omega
    have hmantissa : (BitVec.ofNat 52 m).toNat = m := by
      rw [BitVec.toNat_ofNat]
      omega
    have hzeros : BitVec.ofNat 52 m ≠ 0#52 := by
      intro heq
      rw [heq] at hmantissa
      have : (0#52).toNat = 0 := rfl
      omega
    rw [if_neg hlog, unpack_packComponents, if_neg (by decide), if_pos rfl, dif_neg hzeros]
    congr 1
    exact hleast.symm

/-- Beyond the range there are the infinities. -/
theorem unpack_pack_of_large (hm : 0 < m) (he : 972 ≤ e) :
    unpack Format.binary64 (pack Format.binary64 (.finite s m e hm)) = .infinity s := by
  rw [pack_finite, if_pos he, unpack_packedInfinity]

/-- What is unpacked is as it would be packed. -/
theorem tight_of_unpack {s : Sign} {b : BitVec 64} {hm : 0 < m}
    (h : unpack Format.binary64 b = .finite s m e hm) : Tight m e ∧ e ≤ 971 := by
  have hmantissa : (@unpackMantissa Format.binary64 b).toNat < 2 ^ 52 := BitVec.isLt _
  have hexponent : (@unpackExponent Format.binary64 b).toNat < 2 ^ 11 := BitVec.isLt _
  simp only [unpack, exponentBias_eq] at h
  split at h
  · split at h <;> cases h
  case isFalse hones =>
    have hones' : (@unpackExponent Format.binary64 b).toNat ≠ 2047 := fun heq =>
      hones (BitVec.eq_of_toNat_eq heq)
    split at h
    case isTrue hzeros =>
      split at h
      · cases h
      · obtain ⟨rfl, rfl, rfl⟩ := UnpackedFloat.finite.inj h
        rw [hzeros]
        exact ⟨⟨by exact_mod_cast hmantissa.trans (by norm_num), by decide, .inl rfl⟩, by decide⟩
    case isFalse hzeros =>
      have hzeros' : (@unpackExponent Format.binary64 b).toNat ≠ 0 := fun heq =>
        hzeros (BitVec.eq_of_toNat_eq heq)
      obtain ⟨rfl, rfl, rfl⟩ := UnpackedFloat.finite.inj h
      rw [toNat_append_one]
      have hlo : 2 ^ 52 ≤ 2 ^ 52 + (@unpackMantissa Format.binary64 b).toNat := Nat.le_add_right _ _
      have hhi : 2 ^ 52 + (@unpackMantissa Format.binary64 b).toNat < 2 ^ 53 := by omega
      exact ⟨⟨by exact_mod_cast hhi, by omega, .inr (by exact_mod_cast hlo)⟩, by omega⟩

end

/-! ### Comparing -/

/-- Only a number itself compares equal to it, if it is finite and not zero. -/
theorem eq_of_compare_eq {a : UnpackedFloat} {m : Nat} {e : Int} {h : 0 < m}
    (heq : a.compare (.finite .positive m e h) = some .eq) : a = .finite .positive m e h := by
  cases a with
  | infinity sign => cases sign <;> cases heq
  | notANumber => cases heq
  | zero sign => cases heq
  | finite sign m' e' h' =>
    cases sign with
    | negative => cases heq
    | positive =>
      have hparts : (compare e' e).then (compare m' m) = .eq := Option.some.inj heq
      rw [Ordering.then_eq_eq, compare_eq_iff_eq, compare_eq_iff_eq] at hparts
      obtain ⟨rfl, rfl⟩ := hparts
      rfl

theorem lt_iff_compare {x y : Float} :
    x < y ↔ x.toModel.unpack.compare y.toModel.unpack = some .lt := by
  change decide _ = true ↔ _
  rw [decide_eq_true_iff]
  change (_ == _) = true ↔ _
  rw [beq_iff_eq]

theorem le_iff_compare {x y : Float} :
    x ≤ y ↔ (x.toModel.unpack.compare y.toModel.unpack).any (·.isLE) = true := by
  change decide _ = true ↔ _
  rw [decide_eq_true_iff]
  exact Iff.rfl

theorem unpack_zero : (0.0 : Float).toModel.unpack = .zero .positive := rfl

theorem unpack_one :
    (1.0 : Float).toModel.unpack = .finite .positive 4503599627370496 (-52) (by decide) := rfl

/-- What compares equal to one is compared to other numbers as one is. -/
theorem unpack_of_beq_one {x : Float} (h : (x == 1.0) = true) :
    x.toModel.unpack = (1.0 : Float).toModel.unpack := by
  have hcompare : (x.toModel.unpack.compare (1.0 : Float).toModel.unpack == some .eq) = true := h
  rw [beq_iff_eq, unpack_one] at hcompare
  rw [unpack_one]
  exact eq_of_compare_eq hcompare

/-- A finite number is at least zero if it is not below. -/
theorem zero_le_iff_not_lt {x : Float} (h : x.isFinite = true) : 0.0 ≤ x ↔ ¬x < 0.0 := by
  have hfinite : x.toModel.unpack.isFinite = true := h
  rw [le_iff_compare, lt_iff_compare, unpack_zero]
  generalize x.toModel.unpack = a at hfinite ⊢
  cases a with
  | infinity sign => cases hfinite
  | notANumber => cases hfinite
  | zero sign => exact iff_of_true rfl nofun
  | finite sign m e hm =>
    cases sign with
    | negative => exact iff_of_false nofun fun h => h rfl
    | positive => exact iff_of_true rfl nofun

/-- A size with a sign. -/
noncomputable def signed : Sign → EReal → EReal
  | .positive, v => v
  | .negative, v => -v

/-- The number that an unpacked double is, unless it is none. -/
noncomputable def valueOf? : UnpackedFloat → Option EReal
  | .notANumber => none
  | .infinity s => some (signed s ⊤)
  | .zero _ => some 0
  | .finite s m e _ => some (signed s (m * 2 ^ e : ℝ))

/-- The number that a double is, unless it is none. -/
noncomputable def value? (x : Float) : Option EReal := valueOf? x.toModel.unpack

/-- The double is the finite number `v`. -/
def Is (x : Float) (v : ℝ) : Prop := value? x = some (v : EReal)

/-- The number that a double is, and zero if it is none. -/
noncomputable def extent (x : Float) : EReal := (value? x).getD 0

theorem Is.extent_eq {x : Float} {a : ℝ} (hx : Is x a) : extent x = a := by
  rw [extent, hx, Option.getD_some]

/-- What lies between finite numbers is one. -/
theorem exists_real {lo hi : ℝ} {w : EReal} (hlo : (lo : EReal) ≤ w) (hhi : w ≤ hi) :
    ∃ v : ℝ, w = v ∧ lo ≤ v ∧ v ≤ hi := by
  have htop : w ≠ ⊤ := (hhi.trans_lt (EReal.coe_lt_top hi)).ne
  have hbot : w ≠ ⊥ := ((EReal.bot_lt_coe lo).trans_le hlo).ne'
  rw [← EReal.coe_toReal htop hbot] at hlo hhi
  exact ⟨w.toReal, (EReal.coe_toReal htop hbot).symm, EReal.coe_le_coe_iff.mp hlo,
    EReal.coe_le_coe_iff.mp hhi⟩

theorem compare_coe (x y : ℝ) : compare (x : EReal) (y : EReal) = compare x y := by
  rcases lt_trichotomy x y with h | h | h
  · rw [compare_lt_iff_lt.mpr h, compare_lt_iff_lt.mpr (EReal.coe_lt_coe_iff.mpr h)]
  · rw [compare_eq_iff_eq.mpr h, compare_eq_iff_eq.mpr (congrArg _ h)]
  · rw [compare_gt_iff_gt.mpr h, compare_gt_iff_gt.mpr (EReal.coe_lt_coe_iff.mpr h)]

theorem compare_neg_neg (x y : EReal) : compare (-x) (-y) = (compare x y).swap := by
  rcases lt_trichotomy x y with h | h | h
  · rw [compare_lt_iff_lt.mpr h, compare_gt_iff_gt.mpr (EReal.neg_lt_neg_iff.mpr h)]
    rfl
  · rw [compare_eq_iff_eq.mpr h, compare_eq_iff_eq.mpr (congrArg _ h)]
    rfl
  · rw [compare_gt_iff_gt.mpr h, compare_lt_iff_lt.mpr (EReal.neg_lt_neg_iff.mpr h)]
    rfl

/-- Sizes compare as their exponents do, and then as their mantissas. -/
theorem compare_parts {m n : ℕ} {e f : ℤ} (h : Tight m e) (h' : Tight n f) :
    (compare e f).then (compare m n) = compare ((m : ℝ) * 2 ^ e) (n * 2 ^ f) := by
  have hm : m < 2 ^ 53 := by exact_mod_cast h.lt
  have hn : n < 2 ^ 53 := by exact_mod_cast h'.lt
  have hlow := h.le_exponent
  have hlow' := h'.le_exponent
  rcases lt_trichotomy e f with hef | rfl | hef
  · have hsmall := mul_zpow_lt hm hef
    have hlarge : (2 : ℝ) ^ 52 * 2 ^ f ≤ n * 2 ^ f :=
      mul_le_mul_of_nonneg_right (h'.full.resolve_left (by omega)) (by positivity)
    rw [compare_lt_iff_lt.mpr hef, compare_lt_iff_lt.mpr (hsmall.trans_le hlarge)]
    rfl
  · have hpow : (0 : ℝ) < 2 ^ e := by positivity
    rw [compare_eq_iff_eq.mpr rfl, Ordering.eq_then]
    rcases lt_trichotomy m n with hmn | rfl | hmn
    · rw [compare_lt_iff_lt.mpr hmn, compare_lt_iff_lt.mpr]
      gcongr
    · rw [compare_eq_iff_eq.mpr rfl, compare_eq_iff_eq.mpr rfl]
    · rw [compare_gt_iff_gt.mpr hmn, compare_gt_iff_gt.mpr]
      gcongr
  · have hsmall := mul_zpow_lt hn hef
    have hlarge : (2 : ℝ) ^ 52 * 2 ^ e ≤ m * 2 ^ e :=
      mul_le_mul_of_nonneg_right (h.full.resolve_left (by omega)) (by positivity)
    rw [compare_gt_iff_gt.mpr hef, compare_gt_iff_gt.mpr (hsmall.trans_le hlarge)]
    rfl

theorem signed_bounds (s : Sign) (r : ℝ) : ⊥ < signed s r ∧ signed s r < ⊤ := by
  cases s
  · exact ⟨EReal.bot_lt_coe (-r), EReal.coe_lt_top (-r)⟩
  · exact ⟨EReal.bot_lt_coe r, EReal.coe_lt_top r⟩

/-- Doubles compare as the numbers that they are. -/
theorem compare_of_value {x y : Float} {a b : EReal} (hx : value? x = some a)
    (hy : value? y = some b) : x.toModel.unpack.compare y.toModel.unpack = some (compare a b) := by
  have htight : ∀ {z : Float} {s m e hm}, z.toModel.unpack = .finite s m e hm → Tight m e :=
    fun h => (tight_of_unpack h).1
  have hlt : ∀ {c d : EReal}, c < d → some Ordering.lt = some (compare c d) := fun h =>
    congrArg some (compare_lt_iff_lt.mpr h).symm
  have hgt : ∀ {c d : EReal}, d < c → some Ordering.gt = some (compare c d) := fun h =>
    congrArg some (compare_gt_iff_gt.mpr h).symm
  have heq : ∀ {c d : EReal}, c = d → some Ordering.eq = some (compare c d) := fun h =>
    congrArg some (compare_eq_iff_eq.mpr h).symm
  unfold value? at hx hy
  cases hu : x.toModel.unpack <;> cases hv : y.toModel.unpack <;>
    rw [hu] at hx <;> rw [hv] at hy <;> cases hx <;> cases hy
  case infinity.infinity s s' =>
    cases s <;> cases s'
    · exact heq rfl
    · exact hlt bot_lt_top
    · exact hgt bot_lt_top
    · exact heq rfl
  case infinity.zero s s' =>
    cases s
    · exact hlt EReal.bot_lt_zero
    · exact hgt EReal.zero_lt_top
  case infinity.finite s s' n f hn =>
    cases s
    · exact hlt (signed_bounds s' _).1
    · exact hgt (signed_bounds s' _).2
  case zero.infinity s s' =>
    cases s'
    · exact hgt EReal.bot_lt_zero
    · exact hlt EReal.zero_lt_top
  case zero.zero s s' => exact heq rfl
  case zero.finite s s' n f hn =>
    have hpos : (0 : ℝ) < n * 2 ^ f := by positivity
    cases s'
    · exact hgt (EReal.coe_lt_coe_iff.mpr (neg_lt_zero.mpr hpos))
    · exact hlt (EReal.coe_lt_coe_iff.mpr hpos)
  case finite.infinity s m e hm s' =>
    cases s'
    · exact hgt (signed_bounds s _).1
    · exact hlt (signed_bounds s _).2
  case finite.zero s m e hm s' =>
    have hpos : (0 : ℝ) < m * 2 ^ e := by positivity
    cases s
    · exact hlt (EReal.coe_lt_coe_iff.mpr (neg_lt_zero.mpr hpos))
    · exact hgt (EReal.coe_lt_coe_iff.mpr hpos)
  case finite.finite s m e hm s' n f hn =>
    have hpos : (0 : ℝ) < m * 2 ^ e := by positivity
    have hpos' : (0 : ℝ) < n * 2 ^ f := by positivity
    have hparts := compare_parts (htight hu) (htight hv)
    rw [← compare_coe] at hparts
    cases s <;> cases s'
    · refine congrArg some ?_
      rw [hparts]
      exact (compare_neg_neg _ _).symm
    · exact hlt (EReal.coe_lt_coe_iff.mpr (by linarith))
    · exact hgt (EReal.coe_lt_coe_iff.mpr (by linarith))
    · exact congrArg some hparts

variable {x y : Float} {a b : EReal}

theorem lt_iff_of_value (hx : value? x = some a) (hy : value? y = some b) : x < y ↔ a < b := by
  rw [lt_iff_compare, compare_of_value hx hy, Option.some_inj, compare_lt_iff_lt]

theorem le_iff_of_value (hx : value? x = some a) (hy : value? y = some b) : x ≤ y ↔ a ≤ b := by
  rw [le_iff_compare, compare_of_value hx hy, Option.any_some]
  exact Std.LawfulBCmp.isLE_iff_le

/-- What compares is a number. -/
theorem exists_value_of_compare {o : Ordering}
    (h : x.toModel.unpack.compare y.toModel.unpack = some o) :
    ∃ a b, value? x = some a ∧ value? y = some b := by
  unfold value?
  cases hu : x.toModel.unpack
  case notANumber =>
    rw [hu] at h
    cases h
  all_goals
    cases hv : y.toModel.unpack
    case notANumber =>
      rw [hu, hv] at h
      simp [UnpackedFloat.compare] at h
    all_goals exact ⟨_, _, rfl, rfl⟩

theorem exists_value_of_lt (h : x < y) : ∃ a b, value? x = some a ∧ value? y = some b ∧ a < b := by
  obtain ⟨a, b, hx, hy⟩ := exists_value_of_compare (lt_iff_compare.mp h)
  exact ⟨a, b, hx, hy, (lt_iff_of_value hx hy).mp h⟩

theorem exists_value_of_le (h : x ≤ y) : ∃ a b, value? x = some a ∧ value? y = some b ∧ a ≤ b := by
  have hcompare := le_iff_compare.mp h
  cases ho : x.toModel.unpack.compare y.toModel.unpack with
  | none =>
    rw [ho] at hcompare
    cases hcompare
  | some o =>
    obtain ⟨a, b, hx, hy⟩ := exists_value_of_compare ho
    exact ⟨a, b, hx, hy, (le_iff_of_value hx hy).mp h⟩

theorem exists_value_gt (h : x < y) (hx : value? x = some a) : ∃ b, value? y = some b ∧ a < b := by
  obtain ⟨-, b, -, hy, -⟩ := exists_value_of_lt h
  exact ⟨b, hy, (lt_iff_of_value hx hy).mp h⟩

theorem exists_value_le (h : x ≤ y) (hy : value? y = some b) : ∃ a, value? x = some a ∧ a ≤ b := by
  obtain ⟨a, -, hx, -, -⟩ := exists_value_of_le h
  exact ⟨a, hx, (le_iff_of_value hx hy).mp h⟩

theorem exists_value_ge (h : x ≤ y) (hx : value? x = some a) : ∃ b, value? y = some b ∧ a ≤ b := by
  obtain ⟨-, b, -, hy, -⟩ := exists_value_of_le h
  exact ⟨b, hy, (le_iff_of_value hx hy).mp h⟩

end Resampler.Binary64

import Resampler.Proofs.Binary64.NaN
import Resampler.Proofs.Binary64.Spacing
import Resampler.Proofs.Binary64.Scalar

/-!
Sums of doubles that are not negative.

A sum that is a finite number has finite terms only. It is added up one term after the other, and
each time a share of `2 ^ -52` is lost at most, so that a sum of fewer than `2 ^ 50` terms is not
less than half of the exact one (`foldl_add_amount`, `amount_add_sum_le`).

Terms are divided by their sum to make shares of them. If the sum is no finite number, or is zero,
the shares vanish or are no numbers; else they sum to little more than one. Either way they are
`Light`, which is all that is asked of the weights of a kernel (`light_div`).
-/

namespace Resampler.Binary64

variable {x y t : Float} {a b : ℝ}

/-- The finite number that a double is, and zero if it is none. -/
noncomputable def amount (x : Float) : ℝ := (extent x).toReal

theorem Is.amount_eq (hx : Is x a) : amount x = a := by
  rw [amount, hx.extent_eq, EReal.toReal_coe]

theorem amount_of_none (hx : value? x = none) : amount x = 0 := by
  rw [amount, extent, hx, Option.getD_none, EReal.toReal_zero]

theorem amount_of_top (hx : value? x = some ⊤) : amount x = 0 := by
  rw [amount, extent, hx, Option.getD_some, EReal.toReal_top]

theorem NotNegative.amount_nonneg (hx : NotNegative x) : 0 ≤ amount x := by
  obtain hnone | htop | ⟨a, ha, hpos⟩ := hx.cases
  · rw [amount_of_none hnone]
  · rw [amount_of_top htop]
  · rwa [ha.amount_eq]

theorem sum_amount_nonneg {xs : List Float} (hxs : ∀ x ∈ xs, NotNegative x) :
    0 ≤ (xs.map amount).sum := by
  refine List.sum_nonneg fun v hv => ?_
  obtain ⟨x, hx, rfl⟩ := List.mem_map.mp hv
  exact (hxs x hx).amount_nonneg

/-- A sum that is a finite number has finite terms, and is no less than what it started with. Each
term costs a share of `2 ^ -52` at most. -/
theorem foldl_add_amount {xs : List Float} {acc : Float} (hacc : NotNegative acc)
    (hxs : ∀ x ∈ xs, NotNegative x) (ht : Is (xs.foldl (· + ·) acc) b) :
    Is acc (amount acc) ∧ (∀ x ∈ xs, Is x (amount x)) ∧ amount acc ≤ b ∧
      (1 - xs.length / 2 ^ 52) * (amount acc + (xs.map amount).sum) ≤ b := by
  induction xs generalizing acc with
  | nil =>
    have hacc' : Is acc b := ht
    rw [hacc'.amount_eq]
    exact ⟨hacc', by simp, le_rfl, by simp⟩
  | cons x xs ih =>
    have hx := hxs x List.mem_cons_self
    have hrest : ∀ y ∈ xs, NotNegative y := fun y hy => hxs y (List.mem_cons_of_mem x hy)
    obtain ⟨hsum, hterms, hle, hshare⟩ := ih (hacc.add hx) hrest ht
    obtain ⟨u, v, hu, hupos, hv, hvpos, hrounded⟩ := exists_of_add hacc hx hsum
    have hmore : u ≤ amount (acc + x) :=
      EReal.coe_le_coe_iff.mp (hrounded.le_of_ge u (hu.isDouble hupos) (by linarith))
    have hloss := (abs_le.mp (hrounded.abs_sub_le_of_add (hu.isDouble hupos)
      (hv.isDouble hvpos))).1
    have hothers := sum_amount_nonneg hrest
    rw [hu.amount_eq]
    refine ⟨hu, ?_, hmore.trans hle, ?_⟩
    · intro y hy
      rcases List.mem_cons.mp hy with rfl | hy
      · rwa [hv.amount_eq]
      · exact hterms y hy
    · rw [List.map_cons, List.sum_cons, hv.amount_eq, List.length_cons]
      have hcount : (0 : ℝ) ≤ xs.length := Nat.cast_nonneg _
      rcases le_or_gt (xs.length : ℝ) (2 ^ 52) with hfew | hmany
      · have hkept : (1 - xs.length / 2 ^ 52) * ((1 - 1 / 2 ^ 52) * (u + v)) ≤
            (1 - xs.length / 2 ^ 52) * amount (acc + x) := by
          refine mul_le_mul_of_nonneg_left (by linarith) (sub_nonneg.mpr ?_)
          rwa [div_le_one (by positivity)]
        have hsmall : 0 ≤ (xs.length : ℝ) / 2 ^ 52 * (1 / 2 ^ 52) * (u + v) := by positivity
        push_cast
        nlinarith
      · have hb : 0 ≤ b := (hacc.add hx).amount_nonneg.trans hle
        refine le_trans (mul_nonpos_of_nonpos_of_nonneg ?_ (by linarith)) hb
        rw [sub_nonpos, one_le_div (by positivity)]
        push_cast
        linarith

/-- Where there are not too many terms, half of the sum at most is lost. -/
theorem amount_add_sum_le {xs : List Float} {acc : Float} (hacc : NotNegative acc)
    (hxs : ∀ x ∈ xs, NotNegative x) (hfew : xs.length ≤ 2 ^ 51)
    (ht : Is (xs.foldl (· + ·) acc) b) : amount acc + (xs.map amount).sum ≤ 2 * b := by
  obtain ⟨-, -, -, hshare⟩ := foldl_add_amount hacc hxs ht
  have hpos := add_nonneg hacc.amount_nonneg (sum_amount_nonneg hxs)
  have hhalf : (xs.length : ℝ) / 2 ^ 52 ≤ 1 / 2 := by
    rw [div_le_iff₀ (by positivity)]
    have hcast : (xs.length : ℝ) ≤ 2 ^ 51 := by exact_mod_cast hfew
    linarith
  nlinarith

theorem NotNegative.foldl_add {xs : List Float} {acc : Float} (hacc : NotNegative acc)
    (hxs : ∀ x ∈ xs, NotNegative x) : NotNegative (xs.foldl (· + ·) acc) := by
  induction xs generalizing acc with
  | nil => exact hacc
  | cons x xs ih =>
    exact ih (hacc.add (hxs x List.mem_cons_self)) fun y hy => hxs y (List.mem_cons_of_mem x hy)

theorem value_foldl_add_of_none {acc : Float} (hacc : value? acc = none) (xs : List Float) :
    value? (xs.foldl (· + ·) acc) = none := by
  induction xs generalizing acc with
  | nil => exact hacc
  | cons x xs ih => exact ih (nan_add x hacc)

/-- A term that is no number leaves none to the sum. -/
theorem value_foldl_add_of_mem {xs : List Float} (hx : x ∈ xs) (hnone : value? x = none)
    (acc : Float) : value? (xs.foldl (· + ·) acc) = none := by
  induction xs generalizing acc with
  | nil => cases hx
  | cons y xs ih =>
    rcases List.mem_cons.mp hx with rfl | hx
    · exact value_foldl_add_of_none (add_nan acc hnone) xs
    · exact ih hx _

/-- Twice a number that is not negative is a finite one only if the number is. -/
theorem exists_of_double (hx : NotNegative x) (h : Is (2.0 * x) b) :
    ∃ a, Is x a ∧ 0 ≤ a ∧ b = 2 * a := by
  obtain hnone | htop | ⟨a, ha, hpos⟩ := hx.cases
  · cases (mul_nan 2.0 hnone).symm.trans h
  · have hdouble : value? (2.0 * x) = some ⊤ := mul_top two_pos is_two htop
    exact absurd (Option.some.inj (hdouble.symm.trans h)) (EReal.coe_ne_top b).symm
  · obtain ⟨w, hw, hrounded⟩ := mul_rounded zero_le_two hpos is_two ha
    obtain rfl : w = b := Option.some.inj (hw.symm.trans h)
    -- twice a double has the same mantissa
    obtain ⟨m, e, hm, he, -, rfl⟩ := ha.isDouble hpos
    have hexp : 2 * ((m : ℝ) * 2 ^ e) = m * 2 ^ (e + 1) := by
      rw [zpow_add_one₀ two_ne_zero]
      ring
    have hnear := (hrounded.roundsTo b rfl).nearest m (e + 1) hm (by omega)
    rw [hexp, sub_self, abs_zero] at hnear
    refine ⟨_, ha, hpos, ?_⟩
    rw [hexp]
    linarith [abs_nonpos_iff.mp hnear]

theorem NotNegative.double (hx : NotNegative x) : NotNegative (2.0 * x) :=
  (is_two.notNegative zero_le_two).mul hx

/-- A sum that counts once what another one counts twice is no more than that one. -/
theorem exists_foldl_add_le {xs : List Float} {acc acc' : Float} (ha : Is acc a) (hpos : 0 ≤ a)
    (hacc' : NotNegative acc') (hle : a ≤ amount acc') (hxs : ∀ x ∈ xs, NotNegative x)
    (hb : Is ((xs.map (2.0 * ·)).foldl (· + ·) acc') b) :
    ∃ v, Is (xs.foldl (· + ·) acc) v ∧ 0 ≤ v ∧ v ≤ b := by
  induction xs generalizing acc acc' a with
  | nil =>
    refine ⟨a, ha, hpos, ?_⟩
    have hb' : Is acc' b := hb
    rwa [hb'.amount_eq] at hle
  | cons x xs ih =>
    have hx := hxs x List.mem_cons_self
    have hrest : ∀ y ∈ xs, NotNegative y := fun y hy => hxs y (List.mem_cons_of_mem x hy)
    have htwice : ∀ y ∈ xs.map (2.0 * ·), NotNegative y := fun y hy => by
      obtain ⟨z, hz, rfl⟩ := List.mem_map.mp hy
      exact (hrest z hz).double
    have hnext := hacc'.add hx.double
    obtain ⟨hsum, -⟩ := foldl_add_amount hnext htwice hb
    obtain ⟨u, w, hu, hupos, hw, -, hrounded'⟩ := exists_of_add hacc' hx.double hsum
    obtain ⟨c, hc, hcpos, rfl⟩ := exists_of_double hx hw
    rw [hu.amount_eq] at hle
    obtain ⟨v, hv, hrounded⟩ := add_rounded hpos hcpos ha hc
    have hvle : v ≤ (amount (acc' + 2.0 * x) : ℝ) := by
      rcases (by linarith : a + c ≤ u + 2 * c).lt_or_eq with hlt | heq
      · exact hrounded.le_of_lt hrounded' hlt
      · -- nothing is added then, and nothing rounded
        have hzero : c = 0 := by linarith
        subst hzero
        rw [add_zero] at hrounded
        exact (hrounded.le_of_le u (hu.isDouble hupos) hle).trans
          (hrounded'.le_of_ge u (hu.isDouble hupos) (by linarith))
    obtain ⟨r, rfl, hr⟩ := exists_real (hrounded.le_of_ge 0 isDouble_zero (by linarith)) hvle
    exact ih hv hr.1 hnext hr.2 hrest hb

/-! ### Shares of a sum -/

/-- The double is neither infinite nor a negative number. -/
def Tame (x : Float) : Prop := value? x = none ∨ ∃ a, Is x a ∧ 0 ≤ a

theorem Tame.amount_nonneg (hx : Tame x) : 0 ≤ amount x := by
  obtain hnone | ⟨a, ha, hpos⟩ := hx
  · rw [amount_of_none hnone]
  · rwa [ha.amount_eq]

theorem tame_div_of_none (x : Float) (ht : value? t = none) :
    Tame (x / t) ∧ amount (x / t) = 0 := by
  have hnone := div_nan x ht
  exact ⟨.inl hnone, amount_of_none hnone⟩

/-- What is divided by a sum that it is part of is a share, or no number. -/
theorem tame_div (hx : NotNegative x) (ht : NotNegative t)
    (hpart : ∀ b, Is t b → Is x (amount x) ∧ amount x ≤ 4 * b) :
    Tame (x / t) ∧ amount (x / t) ≤ 2 * amount x / amount t := by
  obtain hnone | htop | ⟨b, hb, hbpos⟩ := ht.cases
  · obtain ⟨htame, hzero⟩ := tame_div_of_none x hnone
    rw [hzero, amount_of_none hnone, div_zero]
    exact ⟨htame, le_rfl⟩
  · rw [amount_of_top htop, div_zero]
    obtain hnone | hzero := div_top hx htop
    · exact ⟨.inl hnone, (amount_of_none hnone).le⟩
    · exact ⟨.inr ⟨0, hzero, le_rfl⟩, hzero.amount_eq.le⟩
  · obtain ⟨ha, hle⟩ := hpart b hb
    have hpos := hx.amount_nonneg
    rw [hb.amount_eq]
    rcases hbpos.eq_or_lt with rfl | hbpos
    · have hzero : amount x = 0 := by linarith
      rw [hzero] at ha
      have hnone := zero_div_zero ha hb
      rw [amount_of_none hnone, div_zero]
      exact ⟨.inl hnone, le_rfl⟩
    · obtain ⟨v, hv, hrounded, hlo, -⟩ := Is.exists_between
        (div_rounded (s := .positive) hpos hbpos ha hb) isDouble_zero
        (isDouble_natCast (n := 4) (by norm_num)) (by positivity)
        (by rw [div_le_iff₀ hbpos]; exact_mod_cast hle)
      rw [hv.amount_eq, mul_div_assoc]
      exact ⟨.inr ⟨v, hv, hlo⟩, (hrounded.roundsTo v rfl).le_double (by positivity)⟩

/-- A sum of two tame doubles that are not extraordinarily large is tame. -/
theorem Tame.add (hx : Tame x) (hy : Tame y) (hle : amount x + amount y ≤ 2 ^ (900 : ℤ)) :
    Tame (x + y) ∧ amount (x + y) ≤ (1 + 1 / 2 ^ 52) * (amount x + amount y) := by
  have hpos := add_nonneg hx.amount_nonneg hy.amount_nonneg
  have hnone : value? (x + y) = none →
      Tame (x + y) ∧ amount (x + y) ≤ (1 + 1 / 2 ^ 52) * (amount x + amount y) := fun h => by
    rw [amount_of_none h]
    exact ⟨.inl h, by positivity⟩
  obtain hx | ⟨a, ha, hapos⟩ := hx
  · exact hnone (nan_add y hx)
  obtain hy | ⟨b, hb, hbpos⟩ := hy
  · exact hnone (add_nan x hy)
  rw [ha.amount_eq, hb.amount_eq] at hle ⊢
  obtain ⟨v, hv, hrounded, hlo, -⟩ := Is.exists_between (add_rounded hapos hbpos ha hb)
    isDouble_zero (isDouble_zpow (e := 900) (by norm_num) (by norm_num)) (by linarith) hle
  have hloss := (abs_le.mp (hrounded.abs_sub_le_of_add (ha.isDouble hapos) (hb.isDouble hbpos))).2
  rw [hv.amount_eq]
  exact ⟨.inr ⟨v, hv, hlo⟩, by linarith⟩

/-- Tame doubles that together are no more than `b`. -/
structure Light (xs : List Float) (b : ℝ) : Prop where
  tame : ∀ x ∈ xs, Tame x
  sum_le : (xs.map amount).sum ≤ b

theorem sum_map_amount_of_zero {xs : List Float} (h : ∀ x ∈ xs, amount x = 0) :
    (xs.map amount).sum = 0 := by
  refine List.sum_eq_zero fun v hv => ?_
  obtain ⟨x, hx, rfl⟩ := List.mem_map.mp hv
  exact h x hx

theorem light_div_of_none (xs : List Float) (ht : value? t = none) : Light (xs.map (· / t)) 0 where
  tame q hq := by
    obtain ⟨x, -, rfl⟩ := List.mem_map.mp hq
    exact (tame_div_of_none x ht).1
  sum_le := by
    refine (sum_map_amount_of_zero fun q hq => ?_).le
    obtain ⟨x, -, rfl⟩ := List.mem_map.mp hq
    exact (tame_div_of_none x ht).2

theorem Light.mono {xs : List Float} {b c : ℝ} (h : Light xs b) (hle : b ≤ c) : Light xs c :=
  ⟨h.tame, h.sum_le.trans hle⟩

/-- Where numbers are no more than four times a sum, their shares are no more than eight. -/
theorem light_div {xs : List Float} (hxs : ∀ x ∈ xs, NotNegative x) (ht : NotNegative t)
    (hpart : ∀ b, Is t b → (∀ x ∈ xs, Is x (amount x)) ∧ (xs.map amount).sum ≤ 4 * b) :
    Light (xs.map (· / t)) 8 := by
  have hshare : ∀ x ∈ xs, Tame (x / t) ∧ amount (x / t) ≤ 2 * amount x / amount t :=
    fun x hx => tame_div (hxs x hx) ht fun b hb => by
      obtain ⟨hall, hsum⟩ := hpart b hb
      refine ⟨hall x hx, (List.single_le_sum ?_ _ (List.mem_map_of_mem hx)).trans hsum⟩
      intro v hv
      obtain ⟨y, hy, rfl⟩ := List.mem_map.mp hv
      exact (hxs y hy).amount_nonneg
  refine ⟨fun q hq => ?_, ?_⟩
  · obtain ⟨x, hx, rfl⟩ := List.mem_map.mp hq
    exact (hshare x hx).1
  · have hsum : ((xs.map (· / t)).map amount).sum ≤ 2 / amount t * (xs.map amount).sum := by
      rw [List.map_map, ← List.sum_map_mul_left]
      refine List.sum_le_sum fun x hx => (hshare x hx).2.trans_eq ?_
      ring
    refine hsum.trans ?_
    obtain hnone | htop | ⟨b, hb, hbpos⟩ := ht.cases
    · rw [amount_of_none hnone]
      norm_num
    · rw [amount_of_top htop]
      norm_num
    · obtain ⟨-, hle⟩ := hpart b hb
      rw [hb.amount_eq]
      rcases hbpos.eq_or_lt with rfl | hbpos
      · norm_num
      · rw [div_mul_eq_mul_div, div_le_iff₀ hbpos]
        linarith

end Resampler.Binary64

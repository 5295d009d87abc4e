import Resampler.Proofs.Binary64.NaN

/-!
An exponential function of doubles.

Libraries differ in the last places of their exponential functions. What is assumed of one here is
that it is monotone, has the right values at zero, at negative infinity and at what is no number,
and has left one at `2 ^ -47` below zero by half of that at least (`Exponential`).
-/

namespace Resampler.Binary64

/-- Doubles with a given exponential function. -/
@[reducible] def analytic (exp : Float → Float) : Analytic Float where
  sqrt := Float.sqrt
  exp
  sin := Float.sin

/-- What an exponential function of doubles can be relied on for. -/
structure Exponential (exp : Float → Float) : Prop where
  mono : ∀ x y, x ≤ y → exp x ≤ exp y
  zero : exp 0.0 = 1.0
  bottom : exp (-1.0 / 0.0) = 0.0
  nan : ∀ x, x.isNaN = true → (exp x).isNaN = true
  /-- below zero it falls from 1, by half of what it should at least -/
  drop : exp (-1.0 / 140737488355328.0) ≤ 1.0 - 1.0 / 281474976710656.0

theorem is_bottom : value? (-1.0 / 0.0) = some ⊥ := rfl

theorem neg_small_value : value? (-1.0 / 140737488355328.0) = some (-(2 ^ (-47 : ℤ)) : ℝ) := by
  have h : value? (-1.0 / 140737488355328.0) =
      some (signed .negative ((4503599627370496 : ℕ) * 2 ^ (-99 : ℤ) : ℝ)) := rfl
  rw [h, signed, ← EReal.coe_neg]
  norm_num

theorem shrunk_one_value : Is (1.0 - 1.0 / 281474976710656.0) (1 - 1 / 2 ^ 48) := by
  have h : Is (1.0 - 1.0 / 281474976710656.0) ((9007199254740960 : ℕ) * 2 ^ (-53 : ℤ)) :=
    Is.of_unpack rfl
  norm_num at h ⊢
  exact h

section

variable {exp : Float → Float} {x : Float} (hexp : Exponential exp)
include hexp

theorem Exponential.zero_value (hx : Is x 0) : Is (exp x) 1 := by
  have hone : value? (exp 0.0) = some ((1 : ℝ) : EReal) := by
    rw [hexp.zero]
    exact is_one
  have hbelow : x ≤ 0.0 := (le_iff_of_value hx is_zero).mpr le_rfl
  have habove : 0.0 ≤ x := (le_iff_of_value is_zero hx).mpr le_rfl
  obtain ⟨a, ha, hle⟩ := exists_value_le (hexp.mono _ _ hbelow) hone
  have hge := (le_iff_of_value hone ha).mp (hexp.mono _ _ habove)
  exact ha.trans (congrArg some (le_antisymm hle hge))

theorem Exponential.notNegative (x : Float) : NotNegative (exp x) := by
  cases hx : value? x with
  | none => exact notNegative_of_none (isNaN_iff.mp (hexp.nan x (isNaN_iff.mpr hx)))
  | some a =>
    have hzero : value? (exp (-1.0 / 0.0)) = some ((0 : ℝ) : EReal) := by
      rw [hexp.bottom]
      exact is_zero
    have hle := hexp.mono _ _ ((le_iff_of_value is_bottom hx).mpr bot_le)
    obtain ⟨b, hb, hlo⟩ := exists_value_ge hle hzero
    intro c hc
    obtain rfl : b = c := Option.some.inj (hb.symm.trans hc)
    exact hlo

/-- Away from zero the exponential function is away from one. -/
theorem Exponential.neg_value {r : EReal} (hr : ((2 ^ (-47 : ℤ) : ℝ) : EReal) ≤ r)
    (hx : value? x = some (signed .negative r)) :
    ∃ y : ℝ, Is (exp x) y ∧ 0 ≤ y ∧ y ≤ 1 - 1 / 2 ^ 48 := by
  have hlow : -1.0 / 0.0 ≤ x := (le_iff_of_value is_bottom hx).mpr bot_le
  have hhigh : x ≤ -1.0 / 140737488355328.0 := by
    refine (le_iff_of_value hx neg_small_value).mpr ?_
    rw [EReal.coe_neg]
    exact EReal.neg_le_neg_iff.mpr hr
  have hzero : value? (exp (-1.0 / 0.0)) = some ((0 : ℝ) : EReal) := by
    rw [hexp.bottom]
    exact is_zero
  obtain ⟨c, hc, hdrop⟩ := exists_value_le hexp.drop shrunk_one_value
  obtain ⟨b, hb, hlo⟩ := exists_value_ge (hexp.mono _ _ hlow) hzero
  have hhi := ((le_iff_of_value hb hc).mp (hexp.mono _ _ hhigh)).trans hdrop
  obtain ⟨y, rfl, hy⟩ := exists_real hlo hhi
  exact ⟨y, hb, hy⟩

end

/-! ### A function in steps -/

/-- `v` up to `c`, and `f` after it. -/
def step (c v : Float) (f : Float → Float) (x : Float) : Float := if x ≤ c then v else f x

section

variable {f : Float → Float} {a c v : Float}

theorem le_step (hv : a ≤ v) (hf : ∀ x, x.isNaN = false → a ≤ f x) (x : Float)
    (hx : x.isNaN = false) : a ≤ step c v f x := by
  unfold step
  split
  · exact hv
  · exact hf x hx

theorem mono_step (hv : v ≤ v) (hf : ∀ x, x.isNaN = false → v ≤ f x)
    (hmono : ∀ x y, x ≤ y → f x ≤ f y) (x y : Float) (hle : x ≤ y) :
    step c v f x ≤ step c v f y := by
  obtain ⟨b, b', hx, hy, hb⟩ := exists_value_of_le hle
  unfold step
  split
  case isTrue =>
    split
    · exact hv
    · exact hf y (isNaN_eq_false hy)
  case isFalse hlarge =>
    split
    case isTrue hsmall =>
      obtain ⟨k, hc, hk⟩ := exists_value_ge hsmall hy
      exact absurd ((le_iff_of_value hx hc).mpr (hb.trans hk)) hlarge
    case isFalse => exact hmono x y hle

theorem isNaN_step (hf : ∀ x, x.isNaN = true → (f x).isNaN = true) (x : Float)
    (hx : x.isNaN = true) : (step c v f x).isNaN = true := by
  have hno : ¬x ≤ c := fun hle => by
    obtain ⟨b, -, hb, -, -⟩ := exists_value_of_le hle
    rw [isNaN_eq_false hb] at hx
    cases hx
  rw [step, if_neg hno]
  exact hf x hx

end

/-- One for all numbers. -/
def plateau (x : Float) : Float := if x.isNaN then x else 1.0

theorem le_plateau {a : Float} (ha : a ≤ 1.0) (x : Float) (hx : x.isNaN = false) :
    a ≤ plateau x := by
  rwa [plateau, hx, if_neg Bool.false_ne_true]

theorem mono_plateau (x y : Float) (hle : x ≤ y) : plateau x ≤ plateau y := by
  obtain ⟨a, b, hx, hy, -⟩ := exists_value_of_le hle
  rw [plateau, plateau, isNaN_eq_false hx, isNaN_eq_false hy, if_neg Bool.false_ne_true,
    if_neg Bool.false_ne_true]
  exact (le_iff_of_value is_one is_one).mpr le_rfl

theorem isNaN_plateau (x : Float) (hx : x.isNaN = true) : (plateau x).isNaN = true := by
  rwa [plateau, if_pos hx]

/-- A coarse exponential function, which is right at negative infinity, at -8 and at zero. -/
def coarse : Float → Float :=
  step (-9.0) 0.0 (step (-8.0) 0.00033546262790251185
    (step (-1.0 / 140737488355328.0) 0.5 plateau))

theorem exponential_coarse : Exponential coarse where
  mono := by
    have hhalf : (0.5 : Float) ≤ 0.5 ∧ (0.5 : Float) ≤ 1.0 := by decide +kernel
    have hsmall : (0.00033546262790251185 : Float) ≤ 0.00033546262790251185 ∧
        (0.00033546262790251185 : Float) ≤ 0.5 ∧ (0.00033546262790251185 : Float) ≤ 1.0 := by
      decide +kernel
    have hzero : (0.0 : Float) ≤ 0.0 ∧ (0.0 : Float) ≤ 0.00033546262790251185 ∧
        (0.0 : Float) ≤ 0.5 ∧ (0.0 : Float) ≤ 1.0 := by decide +kernel
    refine mono_step hzero.1
      (le_step hzero.2.1 (le_step hzero.2.2.1 (le_plateau hzero.2.2.2))) ?_
    refine mono_step hsmall.1 (le_step hsmall.2.1 (le_plateau hsmall.2.2)) ?_
    exact mono_step hhalf.1 (le_plateau hhalf.2) mono_plateau
  zero := by decide +kernel
  bottom := by decide +kernel
  nan := isNaN_step (isNaN_step (isNaN_step isNaN_plateau))
  drop := by decide +kernel

end Resampler.Binary64

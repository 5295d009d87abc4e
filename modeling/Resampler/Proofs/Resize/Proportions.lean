import Mathlib.Tactic.FieldSimp
import Mathlib.Tactic.Ring
import Resampler.Proofs.Rational
import Resampler.Resize.Proportions

/-!
Sizes that keep proportions, in exact arithmetic.

The factor for one of the axes makes the side along it exactly that of the box, and rounding leaves
it there since it is an integer. The side along the other axis is rounded, but an integer bound of
a length is also one of the rounded length, so that a size that fits before rounding fits after it,
and a size that covers covers. At least one pixel is left of each side, and at most what a word can
hold, which moves no side past that of the box.
-/

namespace Resampler

theorem Scalar.greatest_rat (x y : ℚ) : Scalar.greatest x y = max x y := by
  rw [greatest, le_rat, max_comm, max_def]
  simp

namespace Rational

variable {x : ℚ} {n : Int}

/-- An integer that is not above a number is not above the rounded one. -/
theorem le_round (h : (n : ℚ) ≤ x) : n ≤ round x := by
  have hround := (abs_le.mp (abs_round_sub_le x)).1
  have hlt : ((n - 1 : Int) : ℚ) < round x := by
    push_cast
    linarith
  have hlt' : n - 1 < round x := by exact_mod_cast hlt
  omega

/-- An integer that is not below a number is not below the rounded one. -/
theorem round_le (h : x ≤ n) : round x ≤ n := by
  have hround := (abs_le.mp (abs_round_sub_le x)).2
  have hlt : (round x : ℚ) < ((n + 1 : Int) : ℚ) := by
    push_cast
    linarith
  have hlt' : round x < n + 1 := by exact_mod_cast hlt
  omega

/-- A half goes up. -/
theorem one_le_round (h : 1 / 2 ≤ x) : 1 ≤ round x := by
  rw [round_of_nonneg (by linarith), Int.le_floor]
  push_cast
  linarith

end Rational

namespace Size

/-- A length of `n` pixels stands for the exact length `x`: it is the nearest one, unless that is
none at all or more than a word can hold. -/
def StandsFor (n : UInt32) (x : ℚ) : Prop :=
  |(n.toNat : ℚ) - x| ≤ 1 / 2 ∨ (x < 1 / 2 ∧ n = 1) ∨ (4294967295 + 1 / 2 ≤ x ∧ n = 4294967295)

/-- One side of `out` is that of `box`, and the other one stands for the length that makes the
proportions those of `source`. -/
def KeepsProportions (source box out : Size) : Prop :=
  (out.width = box.width ∧
    StandsFor out.height (box.width.toNat * source.height.toNat / source.width.toNat)) ∨
  (out.height = box.height ∧
    StandsFor out.width (box.height.toNat * source.width.toNat / source.height.toNat))

/-! One side. -/

theorem toNat_scaledLength (len scale : ℚ) :
    ((scaledLength len scale).toNat : Int) =
      min (max (Rational.round (len * scale)) 1) 4294967295 := by
  rw [scaledLength, Scalar.round_rat, Word.saturateUnsigned32, UInt32.toNat_ofNat']
  omega

theorem standsFor_scaledLength (len scale : ℚ) :
    StandsFor (scaledLength len scale) (len * scale) := by
  have hlength := toNat_scaledLength len scale
  have hround := Rational.abs_round_sub_le (len * scale)
  rcases lt_or_ge (Rational.round (len * scale)) 1 with hnone | hsome
  · right; left
    refine ⟨not_le.mp fun h => absurd (Rational.one_le_round h) (by omega), ?_⟩
    rw [← UInt32.toNat_inj, UInt32.toNat_one]
    omega
  rcases lt_or_ge 4294967295 (Rational.round (len * scale)) with hmany | hfits
  · right; right
    have hlarge : ((4294967296 : Int) : ℚ) ≤ Rational.round (len * scale) := by
      exact_mod_cast (show (4294967296 : Int) ≤ Rational.round (len * scale) by omega)
    push_cast at hlarge
    refine ⟨by linarith [(abs_le.mp hround).2], ?_⟩
    rw [← UInt32.toNat_inj, show (4294967295 : UInt32).toNat = 4294967295 from rfl]
    omega
  · left
    have hnat : ((scaledLength len scale).toNat : Int) = Rational.round (len * scale) := by omega
    have hcast : ((scaledLength len scale).toNat : ℚ) = Rational.round (len * scale) := by
      exact_mod_cast hnat
    rwa [hcast]

variable {len scale : ℚ} {side : UInt32}

theorem scaledLength_le (h : len * scale ≤ side.toNat) : scaledLength len scale ≤ max side 1 := by
  have hround := Rational.round_le (n := side.toNat) (by exact_mod_cast h)
  have hlength := toNat_scaledLength len scale
  rw [UInt32.le_iff_toNat_le, UInt32.toNat_max, UInt32.toNat_one]
  omega

theorem le_scaledLength (h : side.toNat ≤ len * scale) : max side 1 ≤ scaledLength len scale := by
  have hround := Rational.le_round (n := side.toNat) (by exact_mod_cast h)
  have hlength := toNat_scaledLength len scale
  have hside := side.toNat_lt
  rw [UInt32.le_iff_toNat_le, UInt32.toNat_max, UInt32.toNat_one]
  omega

theorem one_le_scaledLength (len scale : ℚ) : 1 ≤ scaledLength len scale := by
  have hlength := toNat_scaledLength len scale
  rw [UInt32.le_iff_toNat_le, UInt32.toNat_one]
  omega

/-- A length that is a number of pixels is kept. -/
theorem scaledLength_eq (h : len * scale = side.toNat) (hside : 0 < side) :
    scaledLength len scale = side := by
  have hmax : max side 1 = side := by
    rw [← UInt32.toNat_inj, UInt32.toNat_max, UInt32.toNat_one]
    rw [UInt32.lt_iff_toNat_lt, UInt32.toNat_zero] at hside
    omega
  have hle := scaledLength_le h.le
  have hge := le_scaledLength h.ge
  rw [hmax] at hle hge
  exact UInt32.le_antisymm hle hge

/-! Both sides. -/

/-- Both sides, scaled by the same factor. -/
def scaledBy (source : Size) (scale : ℚ) : Size :=
  ⟨scaledLength (source.width.toNat : ℚ) scale, scaledLength (source.height.toNat : ℚ) scale⟩

section Source

variable {source box : Size} {scale : ℚ} (hwidth : 0 < source.width) (hheight : 0 < source.height)
include hwidth hheight

theorem sides_pos : (0 : ℚ) < source.width.toNat ∧ (0 : ℚ) < source.height.toNat := by
  rw [UInt32.lt_iff_toNat_lt, UInt32.toNat_zero] at hwidth hheight
  exact ⟨by exact_mod_cast hwidth, by exact_mod_cast hheight⟩

theorem scaledTo_eq (pick : ℚ → ℚ → ℚ) (box : Size) :
    scaledTo pick source box = source.scaledBy
      (pick (box.width.toNat / source.width.toNat) (box.height.toNat / source.height.toNat)) := by
  have hpixels : ¬(source.width = 0 ∨ source.height = 0) := by
    rintro (h | h)
    · exact absurd hwidth (by rw [h]; decide)
    · exact absurd hheight (by rw [h]; decide)
  rw [scaledTo, if_neg hpixels, scaledBy]
  simp only [Scalar.ofNat_rat]

/-- The ratio along an axis takes the side along it to that of the box. -/
theorem reaches_of_ratio (h : scale = box.width.toNat / source.width.toNat ∨
    scale = box.height.toNat / source.height.toNat) :
    source.width.toNat * scale = box.width.toNat ∨
      source.height.toNat * scale = box.height.toNat := by
  obtain ⟨hw, hh⟩ := sides_pos hwidth hheight
  rcases h with rfl | rfl
  · exact .inl (mul_div_cancel₀ _ hw.ne')
  · exact .inr (mul_div_cancel₀ _ hh.ne')

/-- The factor of the size within a box takes no side past that of the box, and one side to it. -/
theorem exists_within_eq (box : Size) : ∃ scale : ℚ, source.within ℚ box = source.scaledBy scale ∧
    source.width.toNat * scale ≤ box.width.toNat ∧
    source.height.toNat * scale ≤ box.height.toNat ∧
    (source.width.toNat * scale = box.width.toNat ∨
      source.height.toNat * scale = box.height.toNat) := by
  obtain ⟨hw, hh⟩ := sides_pos hwidth hheight
  refine ⟨_, scaledTo_eq hwidth hheight _ box, ?_⟩
  simp only [Scalar.least_rat]
  refine ⟨?_, ?_, ?_⟩
  · rw [← le_div_iff₀' hw]
    exact min_le_left _ _
  · rw [← le_div_iff₀' hh]
    exact min_le_right _ _
  · exact reaches_of_ratio hwidth hheight (min_choice _ _)

/-- The factor of the size that covers a box leaves no side behind that of the box, and takes one
side to it. -/
theorem exists_covering_eq (box : Size) :
    ∃ scale : ℚ, source.covering ℚ box = source.scaledBy scale ∧
      box.width.toNat ≤ source.width.toNat * scale ∧
      box.height.toNat ≤ source.height.toNat * scale ∧
      (source.width.toNat * scale = box.width.toNat ∨
        source.height.toNat * scale = box.height.toNat) := by
  obtain ⟨hw, hh⟩ := sides_pos hwidth hheight
  refine ⟨_, scaledTo_eq hwidth hheight _ box, ?_⟩
  simp only [Scalar.greatest_rat]
  refine ⟨?_, ?_, ?_⟩
  · rw [← div_le_iff₀' hw]
    exact le_max_left _ _
  · rw [← div_le_iff₀' hh]
    exact le_max_right _ _
  · exact reaches_of_ratio hwidth hheight (max_choice _ _)

/-- A factor that takes one side to that of the box keeps the proportions. -/
theorem keepsProportions_scaledBy (hbox : 0 < box.width ∧ 0 < box.height)
    (h : source.width.toNat * scale = box.width.toNat ∨
      source.height.toNat * scale = box.height.toNat) :
    KeepsProportions source box (source.scaledBy scale) := by
  obtain ⟨hw, hh⟩ := sides_pos hwidth hheight
  rcases h with h | h
  · left
    refine ⟨scaledLength_eq h hbox.1, ?_⟩
    have hlength : (box.width.toNat * source.height.toNat / source.width.toNat : ℚ) =
        source.height.toNat * scale := by
      rw [← h]
      field_simp
    rw [hlength]
    exact standsFor_scaledLength _ _
  · right
    refine ⟨scaledLength_eq h hbox.2, ?_⟩
    have hlength : (box.height.toNat * source.width.toNat / source.height.toNat : ℚ) =
        source.width.toNat * scale := by
      rw [← h]
      field_simp
    rw [hlength]
    exact standsFor_scaledLength _ _

end Source

/-- The size within a box has pixels and fits into the box, and the size that covers a box is no
smaller than it along either axis, where a side of the box that is zero counts as one. Both keep
the proportions of a source that has pixels, for every box that has some: one side is that of
the box, and the other is off by half a pixel at most, unless that would be no pixel or more than
a word can hold. -/
theorem within_fits_covering_covers (source box : Size) (hwidth : 0 < source.width)
    (hheight : 0 < source.height) :
    (1 ≤ (source.within ℚ box).width ∧ (source.within ℚ box).width ≤ max box.width 1) ∧
    (1 ≤ (source.within ℚ box).height ∧ (source.within ℚ box).height ≤ max box.height 1) ∧
    max box.width 1 ≤ (source.covering ℚ box).width ∧
    max box.height 1 ≤ (source.covering ℚ box).height ∧
    (0 < box.width ∧ 0 < box.height →
      KeepsProportions source box (source.within ℚ box) ∧
      KeepsProportions source box (source.covering ℚ box)) := by
  obtain ⟨s, hwithin, hright, hbottom, htight⟩ := exists_within_eq hwidth hheight box
  obtain ⟨t, hcovering, hright', hbottom', htight'⟩ := exists_covering_eq hwidth hheight box
  rw [hwithin, hcovering]
  exact ⟨⟨one_le_scaledLength _ _, scaledLength_le hright⟩,
    ⟨one_le_scaledLength _ _, scaledLength_le hbottom⟩,
    le_scaledLength hright', le_scaledLength hbottom', fun hbox =>
      ⟨keepsProportions_scaledBy hwidth hheight hbox htight,
        keepsProportions_scaledBy hwidth hheight hbox htight'⟩⟩

/-- A source so narrow that its width is less than half a pixel within the box, and so high that
no word holds the height with which it covers the box. -/
theorem within_fits_covering_covers_needle :
    let source : Size := ⟨1, 4294967295⟩
    let box : Size := ⟨2, 1⟩
    0 < source.width ∧ 0 < source.height ∧
      (1 ≤ (source.within ℚ box).width ∧ (source.within ℚ box).height ≤ 1) ∧
      (2 ≤ (source.covering ℚ box).width ∧ 1 ≤ (source.covering ℚ box).height) ∧
      KeepsProportions source box (source.within ℚ box) ∧
      KeepsProportions source box (source.covering ℚ box) := by
  intro source box
  obtain ⟨⟨hwidth, -⟩, ⟨-, hheight⟩, hright, hbottom, hkeeps⟩ :=
    within_fits_covering_covers source box (by decide) (by decide)
  obtain ⟨hwithin, hcovering⟩ := hkeeps ⟨by decide, by decide⟩
  exact ⟨by decide, by decide, ⟨hwidth, hheight⟩, ⟨hright, hbottom⟩, hwithin, hcovering⟩

example : (⟨1, 4294967295⟩ : Size).within ℚ ⟨2, 1⟩ = ⟨1, 1⟩ := by decide +kernel

example : (⟨1, 4294967295⟩ : Size).covering ℚ ⟨2, 1⟩ = ⟨2, 4294967295⟩ := by decide +kernel

end Size

end Resampler

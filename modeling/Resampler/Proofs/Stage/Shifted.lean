import Resampler.Proofs.Convolution.Unbounded
import Resampler.Proofs.Stage.Accurate
import Resampler.Proofs.Stage.Local

/-!
Brighter and darker images.

An image may be another one with the same amount added to all samples of a channel. Weights that
sum to one carry that amount through both passes without any error. In the first sum it is a
multiple of what the horizontal pass drops and in the second one of what the vertical pass drops,
so that the roundings never see it: before samples are moved into their range, the two
resampled images differ by just the amount, sample for sample (`Shifted.blended_eq`).
-/

namespace Resampler

namespace FixedPoint

/-- A multiple of what is dropped comes through the rounding, whatever it is added to. -/
theorem dropBits_add_mul_pow {acc k : Int} {shift : Nat} (h : Word.Fits64 (acc + half shift))
    (h' : Word.Fits64 (acc + k * 2 ^ shift + half shift)) :
    dropBits (acc + k * 2 ^ shift) shift = dropBits acc shift + k := by
  rw [dropBits_eq h, dropBits_eq h', Int.add_right_comm,
    Int.add_mul_ediv_right _ _ (by positivity)]

end FixedPoint

namespace Resampling

open FixedPoint

variable (plan : Resampling)

/-- The sample of channel `c` in column `x` and row `y` of the resampled image, before it is moved
into the range of samples. -/
def blended (rows : Nat → Bytes) (y x c : Nat) : Int :=
  dropBits (plan.downSum rows y x c) verticalDrop

/-- The samples of channel `c` are those of the first source and `k c` more. -/
def Shifted (rows rows' : Nat → Bytes) (k : Nat → Int) : Prop :=
  ∀ s < plan.sourceSize.height.toNat, ∀ i < plan.sourceSize.width.toNat,
    ∀ c < plan.kernel.channels,
      ∃ v ∈ plan.kernel.width.load? (rows s) (i * plan.kernel.channels + c),
        ∃ v' ∈ plan.kernel.width.load? (rows' s) (i * plan.kernel.channels + c),
          (v' : Int) = v + k c

variable {plan} {rows rows' : Nat → Bytes} {k : Nat → Int} {y x c : Nat}

theorem convolved_eq_toSample (rows : Nat → Bytes) (y x c : Nat) :
    plan.convolved rows y x c = toSample (plan.blended rows y x c) plan.kernel.width.max := rfl

theorem Shifted.sample_eq (h : plan.Shifted rows rows' k) {s i : Nat}
    (hs : s < plan.sourceSize.height.toNat) (hi : i < plan.sourceSize.width.toNat)
    (hc : c < plan.kernel.channels) :
    (plan.kernel.sample (rows' s) i c : Int) = plan.kernel.sample (rows s) i c + k c := by
  obtain ⟨v, hv, v', hv', hsum⟩ := h s hs i hi c hc
  rw [RowKernel.sample_of_load? hv, RowKernel.sample_of_load? hv', hsum]

namespace Shifted

variable (h : plan.Shifted rows rows' k) (hfits : plan.Fits)
  (hhorizontal : plan.horizontal.Balanced) (hx : x < plan.horizontal.outputSize)
  (hc : c < plan.kernel.channels)
include h hfits hhorizontal hx hc

/-- The horizontal pass keeps the amount with the bits that it has room for. -/
theorem across_eq {s : Nat} (hs : s < plan.sourceSize.height.toNat)
    (hsum : Word.Fits64 (plan.acrossSum rows s x c + half horizontalDrop))
    (hsum' : Word.Fits64 (plan.acrossSum rows' s x c + half horizontalDrop))
    (hword : Word.Fits32 (dropBits (plan.acrossSum rows s x c) horizontalDrop))
    (hword' : Word.Fits32 (dropBits (plan.acrossSum rows' s x c) horizontalDrop)) :
    plan.across rows' s x c = plan.across rows s x c + k c * 2 ^ guardBits := by
  have hshift : plan.acrossSum rows' s x c =
      plan.acrossSum rows s x c + k c * 2 ^ guardBits * 2 ^ horizontalDrop := by
    rw [← mul_one_eq_horizontal]
    refine hhorizontal.sum_add_mul hx (hfits.horizontal_channels ▸ hc) fun j hj => ?_
    have hin := hfits.horizontal.lt_of_covers hx (plan.horizontal.covers_tap x hj)
    rw [hfits.width_eq] at hin
    exact h.sample_eq hs hin hc
  rw [Resampling.across_eq, Resampling.across_eq, hword.signed32_eq, hword'.signed32_eq, hshift,
    dropBits_add_mul_pow hsum (hshift ▸ hsum')]

/-- Where no word is too short, the resampled images differ as the sources do. -/
theorem blended_eq (hvertical : plan.vertical.Balanced) (hy : y < plan.vertical.outputSize)
    (hrange : plan.InRange rows y x c) (hrange' : plan.InRange rows' y x c) :
    plan.blended rows' y x c = plan.blended rows y x c + k c := by
  have hshift : plan.downSum rows' y x c =
      plan.downSum rows y x c + k c * 2 ^ verticalDrop := by
    rw [← mul_one_eq_vertical]
    refine hvertical.sum_add_mul hy (hfits.vertical_channels ▸ hc) fun r hr => ?_
    have hin := hfits.vertical.lt_of_covers hy (plan.vertical.covers_tap y hr)
    rw [hfits.height_eq] at hin
    exact h.across_eq hfits hhorizontal hx hc hin (hrange.acrossSum r hr) (hrange'.acrossSum r hr)
      (hrange.across r hr) (hrange'.across r hr)
  rw [blended, blended, hshift, dropBits_add_mul_pow hrange.downSum (hshift ▸ hrange'.downSum)]

end Shifted

variable {σ τ : Type} {below : Source σ} {below' : Source τ}

/-- Two stages with the same tables, whose weights sum to one, were asked whatever they were asked
before. The samples of the one's source are those of the other's with an amount added to each
channel. Where no word is too short, the samples that the two now answer with differ by
just this amount before they are moved into their range, and so do the answers if neither
of them had to be moved. -/
theorem copy_shifted (hseat : plan.Seated below) (hseat' : plan.Seated below')
    (hhorizontal : plan.horizontal.Balanced) (hvertical : plan.vertical.Balanced) {s₀ : σ} {s₀' : τ}
    (hsteady : below.Steady s₀ rows) (hsteady' : below'.Steady s₀' rows')
    (hshift : plan.Shifted rows rows' k) (asked asked' : List (Request × Bytes)) {q q' : Request}
    {buffer buffer' : Bytes} {reply : Reply (State σ)} {reply' : Reply (State τ)}
    (hreply : reply = (plan.source below).copy q buffer
      ((plan.source below).after (.initial s₀) asked))
    (hreply' : reply' = (plan.source below').copy q' buffer'
      ((plan.source below').after (.initial s₀') asked'))
    (hok : reply.result = .ok ()) (hok' : reply'.result = .ok ()) (hin : q.region.Includes y x)
    (hin' : q'.region.Includes y x) (hc : c < plan.kernel.channels)
    (hrange : plan.InRange rows y x c) (hrange' : plan.InRange rows' y x c) :
    ∃ v v', plan.answered? q reply.buffer y x c = some v ∧
      plan.answered? q' reply'.buffer y x c = some v' ∧
      v = toSample (plan.blended rows y x c) plan.kernel.width.max ∧
      v' = toSample (plan.blended rows' y x c) plan.kernel.width.max ∧
      plan.blended rows' y x c = plan.blended rows y x c + k c ∧
      (0 ≤ plan.blended rows y x c ∧ plan.blended rows y x c ≤ plan.kernel.width.max →
        0 ≤ plan.blended rows' y x c ∧ plan.blended rows' y x c ≤ plan.kernel.width.max →
          (v' : Int) = v + k c) := by
  have hq : q.check plan.size plan.format buffer.size =
      .ok (plan.format.rowBytes q.region.width) :=
    (Stage.resampling plan : Stage Unit).check_of_ok (hreply ▸ hok)
  obtain ⟨hlow, hright⟩ := hin.lt_of_check hq
  have hblended := hshift.blended_eq hseat.fits hhorizontal
    (Nat.lt_of_lt_of_le hright plan.width_le) hc hvertical
    (Nat.lt_of_lt_of_le hlow plan.height_le) hrange hrange'
  refine ⟨_, _, hseat.answered?_copy hsteady asked hreply hok hin hc,
    hseat'.answered?_copy hsteady' asked' hreply' hok' hin' hc, rfl, rfl, hblended, fun h h' => ?_⟩
  rw [convolved_eq_toSample, convolved_eq_toSample, toSample, toSample]
  omega

/-- Rows of 30000, 40000 and 30000 are sharpened to 52207, rows that are darker by 5000 to 47207,
also when they are asked for twice. -/
theorem copy_shifted_sharpTriple :
    let img : Image := ⟨⟨3, 2⟩, .grey16,
      #[48, 117, 64, 156, 48, 117, 48, 117, 64, 156, 48, 117], by decide, by decide⟩
    let img' : Image := ⟨⟨3, 2⟩, .grey16,
      #[168, 97, 184, 136, 168, 97, 168, 97, 184, 136, 168, 97], by decide, by decide⟩
    let src : Source Unit := img.source
    let src' : Source Unit := img'.source
    let middle : Request × Bytes := (⟨⟨0, 0, 1, 1⟩, 2⟩, #[0, 0])
    let reply := (sharpTriple.source src).copy middle.1 middle.2 (.initial ())
    let reply' := (sharpTriple.source src').copy middle.1 middle.2
      ((sharpTriple.source src').after (.initial ()) [middle])
    sharpTriple.Shifted img.row img'.row (fun _ => -5000) ∧
      sharpTriple.answered? middle.1 reply.buffer 0 0 0 = some 52207 ∧
        sharpTriple.answered? middle.1 reply'.buffer 0 0 0 = some 47207 := by
  intro img img' src src' middle reply reply'
  have hseat : sharpTriple.Seated src := ⟨fits_sharpTriple, rfl, rfl⟩
  have hseat' : sharpTriple.Seated src' := ⟨fits_sharpTriple, rfl, rfl⟩
  have hhorizontal : sharpTriple.horizontal.Balanced := by
    unfold TapTable.Balanced
    decide
  have hvertical : sharpTriple.vertical.Balanced := by
    unfold TapTable.Balanced
    decide
  have hshift : sharpTriple.Shifted img.row img'.row fun _ => -5000 := by
    have : ∀ s < 2, ∀ i < 3, ∀ c < 1, ∃ v ∈ SampleWidth.sixteen.load? (img.row s) (i * 1 + c),
        ∃ v' ∈ SampleWidth.sixteen.load? (img'.row s) (i * 1 + c), (v' : Int) = v + -5000 := by
      decide +kernel
    exact this
  have hin : middle.1.region.Includes 0 0 := ⟨by decide, by decide, by decide, by decide⟩
  have hrange : sharpTriple.InRange img.row 0 0 0 :=
    ⟨by decide +kernel, by decide +kernel, by decide +kernel⟩
  have hrange' : sharpTriple.InRange img'.row 0 0 0 :=
    ⟨by decide +kernel, by decide +kernel, by decide +kernel⟩
  have hserves : src.Serves (fun _ => True) img.row fun _ => False := img.serves
  have hserves' : src'.Serves (fun _ => True) img'.row fun _ => False := img'.serves
  obtain ⟨v, v', hv, hv', -, -, -, hsame⟩ := copy_shifted hseat hseat' hhorizontal hvertical
    (hserves.steady trivial) (hserves'.steady trivial) hshift [] [middle] (rfl : reply = _)
    (rfl : reply' = _) (by decide +kernel) (by decide +kernel) hin hin (c := 0) (by decide) hrange
    hrange'
  have hmiddle : sharpTriple.answered? middle.1 reply.buffer 0 0 0 = some 52207 := by
    decide +kernel
  refine ⟨hshift, hmiddle, ?_⟩
  rw [hmiddle] at hv
  obtain rfl := Option.some.inj hv
  have hsum : (v' : Int) = (52207 : Nat) + -5000 := hsame (by decide +kernel) (by decide +kernel)
  rw [hv']
  exact congrArg some (by omega)

end Resampling

end Resampler

import Resampler.Proofs.FixedPoint
import Resampler.Proofs.Stage.Interrupted
import Resampler.Proofs.Taps.Balanced

/-!
The samples of an answered request.

What is proved of the arithmetic of a stage is proved of single samples, `Stage.sample`, and
what a caller sees are bytes in a buffer. `Seated.load?_copy` leads from one to the
other: whatever was asked before, each sample of an answered request is that of the stage's
image, so that a statement about the image is one about every answer.
-/

namespace Resampler

namespace TapTable

theorem Made.signed32_sum {t : TapTable} (h : t.Made) {i c : Nat} (hi : i < t.outputSize)
    (hc : c < t.channels) :
    Word.signed32 (∑ j ∈ Finset.range t.tapCount, t.weight i j c) = FixedPoint.one := by
  obtain ⟨_, _, _, _, hwf⟩ : ∃ input output channels alike,
      t.WellFormed input output channels alike := by
    cases h with
    | scale h => exact ⟨_, _, _, _, wellFormed_scale h⟩
    | blur h => exact ⟨_, _, _, _, wellFormed_blur h⟩
  exact hwf.sum_eq i (hwf.outputSize_eq ▸ hi) c (hwf.channels_eq ▸ hc)

/-- No sum of a window's weights is more than a 32-bit word holds. -/
def SumsFit (t : TapTable) : Prop :=
  ∀ i < t.outputSize, ∀ c < t.channels,
    Word.Fits32 (∑ j ∈ Finset.range t.tapCount, t.weight i j c)

instance (t : TapTable) : Decidable t.SumsFit := inferInstanceAs (Decidable (∀ _ < _, _))

/-- The weights of every window sum to one, channel by channel. -/
def Balanced (t : TapTable) : Prop :=
  ∀ i < t.outputSize, ∀ c < t.channels,
    ∑ j ∈ Finset.range t.tapCount, t.weight i j c = FixedPoint.one

/-- What is added to all samples of a window comes out of the sum times one. -/
theorem Balanced.sum_add_mul {t : TapTable} (h : t.Balanced) {i c : Nat}
    (hi : i < t.outputSize) (hc : c < t.channels) {f g : Nat → Int} {k : Int}
    (hfg : ∀ j < t.tapCount, g j = f j + k) :
    ∑ j ∈ Finset.range t.tapCount, g j * t.weight i j c =
      ∑ j ∈ Finset.range t.tapCount, f j * t.weight i j c + k * FixedPoint.one := by
  rw [← h i hi c hc, Finset.mul_sum, ← Finset.sum_add_distrib]
  refine Finset.sum_congr rfl fun j hj => ?_
  rw [hfg j (Finset.mem_range.mp hj), add_mul]

/-- A table that was made is balanced if and only if its sums fit into words. -/
theorem Made.sumsFit_iff {t : TapTable} (h : t.Made) : t.SumsFit ↔ t.Balanced := by
  constructor
  · intro hfits i hi c hc
    rw [← h.signed32_sum hi hc, (hfits i hi c hc).signed32_eq]
  · intro hbalanced i hi c hc
    rw [hbalanced i hi c hc]
    decide

end TapTable

namespace Stage

variable {α σ : Type} {stage : Stage α}

theorem sample_le (stage : Stage α) (rows : Nat → Bytes) (y x c : Nat) :
    stage.sample rows y x c ≤ stage.tables.kernel.width.max := by
  cases stage with
  | resampling plan => exact plan.convolved_le rows y x c
  | sharpening plan => exact RowKernel.sharpSample_le ..

theorem picture_eq (stage : Stage α) (rows : Nat → Bytes) (y : Nat) :
    stage.picture rows y =
      stage.tables.kernel.pixels (stage.sample rows y) 0 stage.tables.size.width.toNat := by
  cases stage <;> rfl

namespace Seated

variable {below : Source σ} (hseat : stage.Seated below) {s₀ : σ} {rows : Nat → Bytes}
  (hsteady : below.Steady s₀ rows) (asked : List (Request × Bytes)) {q : Request} {buffer : Bytes}
  {reply : Reply (Resampling.State σ)}
  (hreply : reply = (stage.source below).copy q buffer
    ((stage.source below).after (.initial s₀) asked))
  (hok : reply.result = .ok ()) {r : Nat} (hr : r < q.region.height.toNat)
include hseat hsteady hreply hok hr

/-- Each row of an answered request is a run of pixels of the stage's image. -/
theorem slice?_copy_eq_pixels :
    reply.buffer.slice? (r * q.stride) (stage.tables.format.rowBytes q.region.width) =
      some (stage.tables.kernel.pixels (stage.sample rows (q.region.y.toNat + r))
        q.region.x.toNat q.region.width.toNat) := by
  have hq := check_of_ok (hreply ▸ hok)
  obtain ⟨hin, -⟩ := Request.check_eq_ok_iff.mp hq
  obtain ⟨hright, -⟩ := (Region.contains_ofSize_iff _ _).mp hin
  rw [hseat.slice?_copy hsteady asked hreply hok hr, Request.rowsOf, picture_eq,
    hseat.tables.fits.part_run hright]

/-- Each sample of an answered request is that of the stage's image. -/
theorem load?_copy :
    ∃ row, reply.buffer.slice? (r * q.stride) (stage.tables.format.rowBytes q.region.width) =
        some row ∧
      ∀ x < q.region.width.toNat, ∀ c < stage.tables.kernel.channels,
        stage.tables.kernel.width.load? row (x * stage.tables.kernel.channels + c) =
          some (stage.sample rows (q.region.y.toNat + r) (q.region.x.toNat + x) c) :=
  ⟨_, hseat.slice?_copy_eq_pixels hsteady asked hreply hok hr, fun _ hx _ hc =>
    RowKernel.load?_pixels hx hc (stage.sample_le _ _ _ _)⟩

end Seated

end Stage

namespace Chain

variable {α σ : Type} [Analytic α] {below : Chain α σ} {stage : Stage α}

theorem Takes.made (h : below.Takes stage) :
    stage.tables.horizontal.Made ∧ stage.tables.vertical.Made := by
  cases h with
  | resampling h => exact h.made
  | sharpening h =>
    obtain ⟨-, hhorizontal, hvertical⟩ := tables_of_sharpened h
    exact ⟨.blur hhorizontal, .blur hvertical⟩

/-- The windows of a sharpening stage contain the samples that they are centered on. -/
theorem Takes.centered {plan : Sharpening α} (h : below.Takes (.sharpening plan)) :
    plan.blur.horizontal.Centered ∧ plan.blur.vertical.Centered := by
  cases h with
  | sharpening h =>
    obtain ⟨-, hhorizontal, hvertical⟩ := tables_of_sharpened h
    exact ⟨(TapTable.shape_blur hhorizontal).2.2.2, (TapTable.shape_blur hvertical).2.2.2⟩

variable {s₀ : below.State} {rows : Nat → Bytes} (hsteady : below.source.Steady s₀ rows)
  (asked : List (Request × Bytes)) {q : Request} {buffer : Bytes}
  {reply : Reply (Resampling.State below.State)}
  (hreply : reply = (stage.source below.source).copy q buffer
    ((stage.source below.source).after (.initial s₀) asked))
  (hok : reply.result = .ok ()) {r : Nat} (hr : r < q.region.height.toNat)
include hsteady hreply hok hr

theorem Takes.slice?_copy_eq_pixels (hstage : below.Takes stage) :
    reply.buffer.slice? (r * q.stride) (stage.tables.format.rowBytes q.region.width) =
      some (stage.tables.kernel.pixels (stage.sample rows (q.region.y.toNat + r))
        q.region.x.toNat q.region.width.toNat) :=
  hstage.seated.slice?_copy_eq_pixels hsteady asked hreply hok hr

theorem Takes.load?_copy (hstage : below.Takes stage) :
    ∃ row, reply.buffer.slice? (r * q.stride) (stage.tables.format.rowBytes q.region.width) =
        some row ∧
      ∀ x < q.region.width.toNat, ∀ c < stage.tables.kernel.channels,
        stage.tables.kernel.width.load? row (x * stage.tables.kernel.channels + c) =
          some (stage.sample rows (q.region.y.toNat + r) (q.region.x.toNat + x) c) :=
  hstage.seated.load?_copy hsteady asked hreply hok hr

/-- A sharpening stage that answers for a row was given the source's own row of that number. -/
theorem Takes.size_row_of_copy (hstage : below.Takes stage) {plan : Sharpening α}
    (hsharpens : stage = .sharpening plan) : (rows (q.region.y.toNat + r)).size =
      plan.blur.format.rowBytes plan.blur.sourceSize.width := by
  subst hsharpens hreply
  have hst := Sharpening.Seated.stands hstage.seated hsteady.gives
  exact hst.size_row_of_copy (hst.serves.keeps_after
    (Resampling.coherent_initial (Source.reaches_self _ s₀)) ⟨asked, rfl⟩) hok hr

end Chain

end Resampler

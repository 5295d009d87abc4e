import Resampler.Proofs.Stage.Chained
import Resampler.Proofs.Stage.Loading

/-!
What the two kinds of stages have in common.

A resampling stage and a sharpening stage do the same with their window and their source
and differ in what they make of a complete window. `Stage` is a stage of either kind. Its
rows are made as `row_eq` says: the rows of the window are fetched, with the failure of the
source as the only one that there is, and then there are pixels. What is
said of windows, failures and fetches from here on is said of a `Stage`.
-/

namespace Resampler

namespace Sharpening

variable {α σ : Type} {plan : Sharpening α} {below : Source σ}

/-- The tables of a sharpening stage were made for its source and keep each row that they
blur. -/
structure Seated (plan : Sharpening α) (below : Source σ) : Prop where
  blur : plan.blur.Seated below
  keepsSource : plan.blur.keepsSource = true
  centered : plan.blur.vertical.Centered
  size_eq : plan.blur.size = plan.blur.sourceSize

variable {I : σ → Prop} {rows : Nat → Bytes} {faults : Failure → Prop}

theorem Stands.seated (hst : plan.Stands below I rows faults) : plan.Seated below :=
  ⟨hst.blur.seated, hst.keepsSource, hst.centered, hst.size_eq⟩

theorem Seated.stands (hseat : plan.Seated below) (hgives : below.Gives I rows faults) :
    plan.Stands below I rows faults :=
  ⟨hseat.blur.stands hgives, hseat.keepsSource, hseat.centered, hseat.size_eq⟩

/-- A sharpened row fails where the rows for its blur cannot be fetched, and only there. -/
theorem Seated.row_eq (hseat : plan.Seated below) {y x width : Nat} {s : Resampling.State σ}
    (hs : plan.blur.Intact s.window) (hy : y < plan.blur.vertical.outputSize)
    (hout : x + width ≤ plan.blur.horizontal.outputSize)
    (hx : x + width ≤ plan.blur.sourceSize.width.toNat) :
    (plan.row below y x width s).state =
        plan.blur.loaded below (plan.blur.vertical.window y).start s ∧
      match (plan.blur.fetchFor below (plan.blur.vertical.window y).start s).result with
      | .error e => (plan.row below y x width s).result = .error e
      | .ok _ => ∀ image,
          plan.blur.Holds image
              (plan.blur.loaded below (plan.blur.vertical.window y).start s).window →
            (plan.row below y x width s).result =
              .ok (plan.blur.kernel.pixels (plan.sharpened image y) x width) := by
  obtain ⟨hstate, hresult⟩ := hseat.blur.row_eq hs hy hout
  cases hr : (plan.blur.fetchFor below (plan.blur.vertical.window y).start s).result with
  | error e =>
    rw [hr] at hresult
    rw [row, Pull.bind_of_error hresult]
    exact ⟨hstate, rfl⟩
  | ok _ =>
    rw [hr] at hresult
    have hsize := Resampling.size_loaded_of_ok hs hr
    have hmade (image : Nat → Bytes) (h : plan.blur.Holds image
        (plan.blur.loaded below (plan.blur.vertical.window y).start s).window) :
        (plan.row below y x width s).state =
            plan.blur.loaded below (plan.blur.vertical.window y).start s ∧
          (plan.row below y x width s).result =
            .ok (plan.blur.kernel.pixels (plan.sharpened image y) x width) := by
      -- the complete window is that of output row `y`, so it has the sharp row of that number
      obtain ⟨hlo, hhi⟩ := hseat.centered y hy
      have hkept := h.keptRow?_eq hseat.keepsSource (y := y) hlo (by rwa [Band.stop, hsize])
      have hwhole := h.size_row (y - (plan.blur.vertical.window y).start) (by omega)
      rw [Resampling.start_loaded, Nat.add_sub_cancel' hlo] at hwhole
      have hroom : x * plan.blur.format.bytesPerPixel + width * plan.blur.format.bytesPerPixel ≤
          (image y).size := by
        rw [hwhole, PixelFormat.rowBytes, ← Nat.add_mul]
        exact Nat.mul_le_mul_right _ hx
      have hst : plan.Stands below (fun _ => False) image fun _ => False :=
        hseat.stands fun _ _ _ h => h.elim
      rw [row, Pull.bind_of_ok (hresult image h), Pull.read_bind, hstate, hkept]
      simp only
      rw [Bytes.slice?_of_le hroom, Pull.lookup_some_bind, hst.sharpenRow?_eq hx hwhole]
      exact ⟨rfl, rfl⟩
    obtain ⟨image, hholds⟩ := (hseat.blur.intact_loaded _ hs).exists_holds
    exact ⟨(hmade image hholds).1, fun image h => (hmade image h).2⟩

end Sharpening

/-- A stage of either kind. -/
inductive Stage (α : Type) where
  | resampling (plan : Resampling)
  | sharpening (plan : Sharpening α)

namespace Stage

variable {α σ : Type}

/-- The tables by which the stage moves its window. -/
def tables : Stage α → Resampling
  | resampling plan => plan
  | sharpening plan => plan.blur

def source : Stage α → Source σ → Source (Resampling.State σ)
  | resampling plan => plan.source
  | sharpening plan => plan.source

/-- The pixels from column `x` on of output row `y`. -/
def row : Stage α → Source σ → Nat → Nat → Nat → Pull (Resampling.State σ) Bytes
  | resampling plan => plan.row
  | sharpening plan => plan.row

def announce : Stage α → Region → List Event
  | resampling _ => fun region => [.resampleRequest region]
  | sharpening _ => fun region => [.sharpenRequest region]

/-- The sample of channel `c` in column `x` and row `y` of the image that the stage makes. -/
def sample : Stage α → (Nat → Bytes) → Nat → Nat → Nat → Nat
  | resampling plan => plan.convolved
  | sharpening plan => plan.sharpened

/-- Row `y` of the image that the stage makes. -/
def picture : Stage α → (Nat → Bytes) → Nat → Bytes
  | resampling plan => plan.picture
  | sharpening plan => plan.picture

def Seated : Stage α → Source σ → Prop
  | resampling plan => plan.Seated
  | sharpening plan => plan.Seated

theorem source_eq (stage : Stage α) (below : Source σ) :
    stage.source below = Source.ofRows stage.tables.size stage.tables.format stage.announce
      fun region y => stage.row below y region.x.toNat region.width.toNat := by
  cases stage <;> rfl

@[simp] theorem size_source (stage : Stage α) (below : Source σ) :
    (stage.source below).size = stage.tables.size := by
  cases stage <;> rfl

@[simp] theorem format_source (stage : Stage α) (below : Source σ) :
    (stage.source below).format = stage.tables.format := by
  cases stage <;> rfl

/-- The rows that are fetched for output row `y`. -/
def fetchFor (stage : Stage α) (below : Source σ) (y : Nat) (s : Resampling.State σ) :
    Source.Fetched σ :=
  stage.tables.fetchFor below (stage.tables.vertical.window y).start s

/-- The state after output row `y`, be it made or not. -/
def loaded (stage : Stage α) (below : Source σ) (y : Nat) (s : Resampling.State σ) :
    Resampling.State σ :=
  stage.tables.loaded below (stage.tables.vertical.window y).start s

variable {stage : Stage α} {below : Source σ}

theorem Seated.tables (hseat : stage.Seated below) : stage.tables.Seated below := by
  cases stage with
  | resampling plan => exact hseat
  | sharpening plan => exact hseat.blur

theorem Seated.window_le (hseat : stage.Seated below) {y : Nat}
    (hy : y < stage.tables.size.height.toNat) :
    (stage.tables.vertical.window y).start + stage.tables.vertical.tapCount ≤
      below.size.height.toNat := by
  have hfits := hseat.tables.fits
  rw [hseat.tables.size_eq, ← hfits.height_eq]
  exact hfits.vertical.inside y (Nat.lt_of_lt_of_le hy stage.tables.height_le)

/-- A stage serves its image over a source that gives the rows of one. -/
theorem Seated.serves (hseat : stage.Seated below) {I : σ → Prop} {rows : Nat → Bytes}
    {faults : Failure → Prop} (hgives : below.Gives I rows faults) :
    (stage.source below).Serves (stage.tables.Coherent I rows) (stage.picture rows) faults := by
  cases stage with
  | resampling plan => exact (Resampling.Seated.stands hseat hgives).serves
  | sharpening plan => exact (Sharpening.Seated.stands hseat hgives).serves

/-- That a stage fits its source is a matter of sizes and formats. -/
theorem Seated.congr {τ : Type} {below' : Source τ} (hseat : stage.Seated below)
    (hsize : below'.size = below.size) (hformat : below'.format = below.format) :
    stage.Seated below' := by
  cases stage with
  | resampling plan => exact Resampling.Seated.congr hseat hsize hformat
  | sharpening plan =>
    exact ⟨hseat.blur.congr hsize hformat, hseat.keepsSource, hseat.centered, hseat.size_eq⟩

/-- A row fails where the rows for it cannot be fetched, with the same failure. Where they can, it
is made of the rows that the window then holds. -/
theorem Seated.row_eq (hseat : stage.Seated below) {y x width : Nat} {s : Resampling.State σ}
    (hs : stage.tables.Intact s.window) (hy : y < stage.tables.size.height.toNat)
    (hx : x + width ≤ stage.tables.size.width.toNat) :
    (stage.row below y x width s).state = stage.loaded below y s ∧
      match (stage.fetchFor below y s).result with
      | .error e => (stage.row below y x width s).result = .error e
      | .ok _ => ∀ image, stage.tables.Holds image (stage.loaded below y s).window →
          (stage.row below y x width s).result =
            .ok (stage.tables.kernel.pixels (stage.sample image y) x width) := by
  have hlow := Nat.lt_of_lt_of_le hy stage.tables.height_le
  have hright := Nat.le_trans hx stage.tables.width_le
  cases stage with
  | resampling plan => exact Resampling.Seated.row_eq hseat hs hlow hright
  | sharpening plan =>
    refine Sharpening.Seated.row_eq hseat hs hlow hright ?_
    rw [← hseat.size_eq]
    exact hx

end Stage

namespace Chain

variable {α σ : Type}

/-- The chain with a stage on top of it. -/
def put (below : Chain α σ) : Stage α → Chain α σ
  | .resampling plan => below.resample plan
  | .sharpening plan => below.sharpen plan

/-- A stage was put on a chain in one of the ways that there are. -/
inductive Takes [Analytic α] (below : Chain α σ) : Stage α → Prop
  | resampling {plan : Resampling} (h : below.Resamples plan) : Takes below (.resampling plan)
  | sharpening {settings : SharpenSettings α} {plan : Sharpening α}
      (h : (below.sharpened settings).result = .ok (below.sharpen plan)) :
      Takes below (.sharpening plan)

variable [Analytic α] {below : Chain α σ} {stage : Stage α}

theorem Takes.seated (h : below.Takes stage) : stage.Seated below.source := by
  -- that a stage fits its source does not depend on what the source gives
  have hgives : below.source.Gives (fun _ => False) (fun _ => #[]) fun _ => False :=
    fun _ _ _ hs => hs.elim
  cases h with
  | resampling h => exact (h.stands hgives).seated
  | sharpening h => exact (stands_of_sharpened h hgives).seated

theorem Takes.ofFormat?_eq (h : below.Takes stage) :
    RowKernel.ofFormat? below.format = some stage.tables.kernel := by
  have hformat : below.format = stage.tables.format := h.seated.tables.format_eq
  rw [hformat]
  exact h.seated.tables.fits.ofFormat?_eq

theorem Built.format_eq {c : Chain α σ} (h : c.Built) : c.format = c.bottom.format := by
  induction h with
  | base src => rfl
  | resample _ hplan ih => exact (Takes.resampling hplan).seated.tables.format_eq.symm.trans ih
  | sharpen _ hplan ih => exact (Takes.sharpening hplan).seated.tables.format_eq.symm.trans ih

/-- The stages of a chain all have the row kernel of its source. -/
theorem Takes.kernel_eq (h : below.Takes stage) (hbelow : below.Built) {k : RowKernel}
    (hk : RowKernel.ofFormat? below.bottom.format = some k) : stage.tables.kernel = k := by
  rw [← hbelow.format_eq, h.ofFormat?_eq] at hk
  exact Option.some.inj hk

/-- A stage can be put on a source with the tables that are made for a target size. -/
theorem takes_of_scale (target : Size) (f : Interpolation α) {kernel : RowKernel}
    {horizontal vertical : TapTable} (hkernel : RowKernel.ofFormat? below.format = some kernel)
    (hhorizontal : TapTable.scale below.size.width.toNat target.width.toNat kernel.weightColors
      kernel.splitsAlpha f = .ok horizontal)
    (hvertical : TapTable.scale below.size.height.toNat target.height.toNat kernel.weightColors
      kernel.splitsAlpha f = .ok vertical) :
    below.Takes (.resampling ⟨below.size, below.format, kernel, horizontal, vertical, false⟩) :=
  .resampling (.toSize (resampled_of_scale hkernel hhorizontal hvertical))

end Chain

/-! Stages small enough to be followed by hand. -/

/-- Takes each pixel of a grey column of height two from the nearest pixel of its source. -/
def Stage.nearestPair : Stage Float := .resampling
  { sourceSize := ⟨1, 2⟩
    format := .grey8
    kernel := ⟨1, .eight, .none⟩
    horizontal := ⟨1, 1, 1, #[⟨0, #[32768]⟩]⟩
    vertical := ⟨2, 1, 1, #[⟨0, #[32768]⟩, ⟨1, #[32768]⟩]⟩
    keepsSource := false }

theorem Stage.ascending_nearestPair : nearestPair.tables.vertical.Ascending := by
  have hstart : ∀ j < 2, ∀ i ≤ j, (nearestPair.tables.vertical.window i).start ≤
      (nearestPair.tables.vertical.window j).start := by decide
  exact fun i j hij hj => hstart j hj i hij

theorem Chain.takes_nearestPair {σ : Type} {below : Chain Float σ} (hsize : below.size = ⟨1, 2⟩)
    (hformat : below.format = .grey8) : below.Takes .nearestPair := by
  have htakes : below.Takes (.resampling ⟨below.size, below.format, ⟨1, .eight, .none⟩,
      ⟨1, 1, 1, #[⟨0, #[32768]⟩]⟩, ⟨2, 1, 1, #[⟨0, #[32768]⟩, ⟨1, #[32768]⟩]⟩, false⟩) := by
    refine takes_of_scale ⟨1, 2⟩ (.plain .point) (by rw [hformat]; rfl) ?_ ?_
    · rw [hsize]
      exact eq_ok_of_toOption (by decide +kernel)
    · rw [hsize]
      exact eq_ok_of_toOption (by decide +kernel)
  rwa [hsize, hformat] at htakes

/-- Takes the mean of the two pixels of a grey column. -/
def Stage.averagePair : Stage Float := .resampling
  { sourceSize := ⟨1, 2⟩
    format := .grey8
    kernel := ⟨1, .eight, .none⟩
    horizontal := ⟨1, 1, 1, #[⟨0, #[32768]⟩]⟩
    vertical := ⟨2, 2, 1, #[⟨0, #[16384, 16384]⟩]⟩
    keepsSource := false }

theorem Chain.takes_averagePair {σ : Type} {below : Chain Float σ} (hsize : below.size = ⟨1, 2⟩)
    (hformat : below.format = .grey8) : below.Takes .averagePair := by
  have htakes : below.Takes (.resampling ⟨below.size, below.format, ⟨1, .eight, .none⟩,
      ⟨1, 1, 1, #[⟨0, #[32768]⟩]⟩, ⟨2, 2, 1, #[⟨0, #[16384, 16384]⟩]⟩, false⟩) := by
    refine takes_of_scale ⟨1, 1⟩ (.plain .box) (by rw [hformat]; rfl) ?_ ?_
    · rw [hsize]
      exact eq_ok_of_toOption (by decide +kernel)
    · rw [hsize]
      exact eq_ok_of_toOption (by decide +kernel)
  rwa [hsize, hformat] at htakes

end Resampler

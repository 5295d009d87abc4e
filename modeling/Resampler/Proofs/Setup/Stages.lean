import Resampler.Proofs.Convolution
import Resampler.Proofs.Setup.Outcome
import Resampler.Stage.Chain

/-!
What a stage is built from.

The construction of a stage checks its format, makes or takes tables, and checks that
the tables belong to the source. The equivalences below say what has been found out
when it succeeds, and `fits_of_build` that this is all the arithmetic asks for. In the
other direction, tables that were made for a source always belong to it, so that a
sharpening stage with sound settings is never refused (`exists_sharpened`).
-/

namespace Resampler

namespace RowKernel

variable {f : PixelFormat} {k : RowKernel}

theorem ofFormat_eq_ok_iff {α : Type} :
    (ofFormat f : Except (SetupError α) RowKernel) = .ok k ↔ ofFormat? f = some k := by
  unfold ofFormat
  split <;> simp_all

/-- The channels of a table are those that share the color weights, and alpha if it has its own. -/
theorem weightColors_add_splitsAlpha (h : ofFormat? f = some k) :
    k.weightColors + k.splitsAlpha.toNat = k.channels := by
  have hpos := channels_pos_of_ofFormat? h
  unfold weightColors
  cases k.splitsAlpha with
  | false => rfl
  | true =>
    simp only [if_true, Bool.toNat_true]
    omega

theorem weightColors_pos (h : ofFormat? f = some k) : 0 < k.weightColors := by
  unfold ofFormat? at h
  split at h <;> cases h
  cases f <;> simp [weightColors, splitsAlpha, PixelFormat.alpha, PixelFormat.channels]

theorem checkTable_eq_ok_iff {α : Type} {t : TapTable} :
    (k.checkTable t : Except (SetupError α) Unit) = .ok () ↔ t.channels = k.channels := by
  unfold checkTable
  split <;> simp_all

end RowKernel

namespace Resampling

variable {α : Type} {sourceSize : Size} {format : PixelFormat} {horizontal vertical : TapTable}
  {keepsSource : Bool} {plan : Resampling}

/-- A plan is made of the tables that it is given, and they are made for its source. -/
theorem build_eq_ok_iff :
    (build sourceSize format horizontal vertical keepsSource : Except (SetupError α) Resampling) =
        .ok plan ↔
      ∃ kernel, RowKernel.ofFormat? format = some kernel ∧
        horizontal.channels = kernel.channels ∧ vertical.channels = kernel.channels ∧
        horizontal.inputSize = sourceSize.width.toNat ∧
        vertical.inputSize = sourceSize.height.toNat ∧
        plan = ⟨sourceSize, format, kernel, horizontal, vertical, keepsSource⟩ := by
  unfold build
  constructor
  · intro h
    obtain ⟨kernel, hkernel, h⟩ := bind_eq_ok_iff.mp h
    obtain ⟨_, hhorizontal, h⟩ := bind_eq_ok_iff.mp h
    obtain ⟨_, hvertical, h⟩ := bind_eq_ok_iff.mp h
    split at h
    · cases h
    case isFalse hsizes =>
      cases h
      obtain ⟨hwidth, hheight⟩ := not_or.mp hsizes
      exact ⟨kernel, RowKernel.ofFormat_eq_ok_iff.mp hkernel,
        RowKernel.checkTable_eq_ok_iff.mp hhorizontal, RowKernel.checkTable_eq_ok_iff.mp hvertical,
        not_not.mp hwidth, not_not.mp hheight, rfl⟩
  · rintro ⟨kernel, hkernel, hhorizontal, hvertical, hwidth, hheight, rfl⟩
    rw [RowKernel.ofFormat_eq_ok_iff.mpr hkernel]
    refine bind_eq_ok_iff.mpr ⟨kernel, rfl, bind_eq_ok_iff.mpr ⟨(),
      RowKernel.checkTable_eq_ok_iff.mpr hhorizontal, bind_eq_ok_iff.mpr ⟨(),
        RowKernel.checkTable_eq_ok_iff.mpr hvertical, ?_⟩⟩⟩
    rw [if_neg (by simp [hwidth, hheight])]
    rfl

theorem fits_of_build
    (h : (build sourceSize format horizontal vertical keepsSource :
      Except (SetupError α) Resampling) = .ok plan)
    (hhorizontal : horizontal.Confined) (hvertical : vertical.Confined) : plan.Fits := by
  obtain ⟨kernel, hkernel, hch, hcv, hwidth, hheight, rfl⟩ := build_eq_ok_iff.mp h
  exact ⟨hkernel, hhorizontal, hvertical, hch, hcv, hwidth, hheight⟩

end Resampling

theorem checkAxis_eq_ok {α : Type} {input output colors : Nat} (hinput : 0 < input)
    (houtput : 0 < output) (hcolors : 0 < colors) :
    (checkAxis input output colors : Except (SetupError α) Unit) = .ok () := by
  rw [checkAxis, if_neg (by omega), if_neg (by omega)]

theorem pos_of_checkAxis {α : Type} {input output colors : Nat}
    (h : (checkAxis input output colors : Except (SetupError α) Unit) = .ok ()) :
    0 < input ∧ 0 < output ∧ 0 < colors := by
  unfold checkAxis at h
  split at h
  · cases h
  · split at h
    · cases h
    · omega

theorem TapTable.exists_scale {α : Type} [Scalar α] {input output colors : Nat}
    (hinput : 0 < input) (houtput : 0 < output) (hcolors : 0 < colors) (alpha : Bool)
    (f : Interpolation α) : ∃ t, TapTable.scale input output colors alpha f = .ok t := by
  rw [TapTable.scale, LooseTable.scale, checkAxis_eq_ok hinput houtput hcolors]
  exact ⟨_, rfl⟩

namespace Chain

variable {α σ : Type} {c c' : Chain α σ}

/-- What putting tables on top results in, without its milestones. -/
theorem result_withTables (c : Chain α σ) (horizontal vertical : TapTable) (keepsSource : Bool) :
    (c.withTables horizontal vertical keepsSource).result =
      c.resample <$> Resampling.build c.size c.format horizontal vertical keepsSource := by
  rw [withTables, Construction.result_bind, Construction.result_ofExcept, map_eq_pure_bind]
  rfl

theorem withTables_eq_ok_iff {horizontal vertical : TapTable} {keepsSource : Bool} :
    (c.withTables horizontal vertical keepsSource).result = .ok c' ↔
      ∃ plan, (Resampling.build c.size c.format horizontal vertical keepsSource :
        Except (SetupError α) Resampling) = .ok plan ∧ c' = c.resample plan := by
  simp only [withTables, Construction.result_bind, Construction.result_ofExcept,
    Construction.result_take, Construction.result_reach, Construction.result_pure]
  rw [bind_eq_ok_iff]
  refine exists_congr fun plan => and_congr_right fun _ => ?_
  change Except.ok (c.resample plan) = Except.ok c' ↔ _
  rw [Except.ok.injEq, eq_comm]

theorem resampled_eq_ok_iff [Scalar α] {target : Size} {f : Interpolation α} :
    (c.resampled target f).result = .ok c' ↔
      ∃ kernel horizontal vertical, RowKernel.ofFormat? c.format = some kernel ∧
        TapTable.scale c.size.width.toNat target.width.toNat kernel.weightColors
          kernel.splitsAlpha f = .ok horizontal ∧
        TapTable.scale c.size.height.toNat target.height.toNat kernel.weightColors
          kernel.splitsAlpha f = .ok vertical ∧
        (c.withTables horizontal vertical false).result = .ok c' := by
  simp only [resampled, Construction.result_bind, Construction.result_ofExcept,
    TapTable.result_buildScale]
  constructor
  · intro h
    obtain ⟨kernel, hkernel, h⟩ := bind_eq_ok_iff.mp h
    obtain ⟨horizontal, hhorizontal, h⟩ := bind_eq_ok_iff.mp h
    obtain ⟨vertical, hvertical, h⟩ := bind_eq_ok_iff.mp h
    exact ⟨kernel, horizontal, vertical, RowKernel.ofFormat_eq_ok_iff.mp hkernel, hhorizontal,
      hvertical, h⟩
  · rintro ⟨kernel, horizontal, vertical, hkernel, hhorizontal, hvertical, h⟩
    exact bind_eq_ok_iff.mpr ⟨kernel, RowKernel.ofFormat_eq_ok_iff.mpr hkernel,
      bind_eq_ok_iff.mpr ⟨horizontal, hhorizontal, bind_eq_ok_iff.mpr ⟨vertical, hvertical, h⟩⟩⟩

/-- Tables that change the size of an image can be put on top of it. -/
theorem withTables_of_scale [Scalar α] {kernel : RowKernel} (target : Size)
    {f : Interpolation α} {horizontal vertical : TapTable}
    (hkernel : RowKernel.ofFormat? c.format = some kernel)
    (hhorizontal : TapTable.scale c.size.width.toNat target.width.toNat kernel.weightColors
      kernel.splitsAlpha f = .ok horizontal)
    (hvertical : TapTable.scale c.size.height.toNat target.height.toNat kernel.weightColors
      kernel.splitsAlpha f = .ok vertical) (keepsSource : Bool) :
    (c.withTables horizontal vertical keepsSource).result =
      .ok (c.resample ⟨c.size, c.format, kernel, horizontal, vertical, keepsSource⟩) := by
  have hchannels := RowKernel.weightColors_add_splitsAlpha hkernel
  obtain ⟨hinh, -, hch⟩ := TapTable.shape_scale hhorizontal
  obtain ⟨hinv, -, hcv⟩ := TapTable.shape_scale hvertical
  refine withTables_eq_ok_iff.mpr ⟨_, Resampling.build_eq_ok_iff.mpr ⟨kernel, hkernel, ?_, ?_,
    hinh, hinv, rfl⟩, rfl⟩
  · rw [hch, hchannels]
  · rw [hcv, hchannels]

/-- The stage to a given size has the tables that are made for it. -/
theorem resampled_of_scale [Scalar α] {kernel : RowKernel} {target : Size}
    {f : Interpolation α} {horizontal vertical : TapTable}
    (hkernel : RowKernel.ofFormat? c.format = some kernel)
    (hhorizontal : TapTable.scale c.size.width.toNat target.width.toNat kernel.weightColors
      kernel.splitsAlpha f = .ok horizontal)
    (hvertical : TapTable.scale c.size.height.toNat target.height.toNat kernel.weightColors
      kernel.splitsAlpha f = .ok vertical) :
    (c.resampled target f).result =
      .ok (c.resample ⟨c.size, c.format, kernel, horizontal, vertical, false⟩) :=
  resampled_eq_ok_iff.mpr ⟨kernel, horizontal, vertical, hkernel, hhorizontal, hvertical,
    withTables_of_scale target hkernel hhorizontal hvertical false⟩

theorem target_of_resampled [Scalar α] {target : Size} {f : Interpolation α}
    (h : (c.resampled target f).result = .ok c') :
    ∃ plan, c' = c.resample plan ∧ plan.size = target ∧ plan.format = c.format := by
  obtain ⟨kernel, horizontal, vertical, -, hhorizontal, hvertical, h⟩ := resampled_eq_ok_iff.mp h
  obtain ⟨plan, hplan, rfl⟩ := withTables_eq_ok_iff.mp h
  obtain ⟨_, -, -, -, -, -, rfl⟩ := Resampling.build_eq_ok_iff.mp hplan
  obtain ⟨-, hwidth, -⟩ := TapTable.shape_scale hhorizontal
  obtain ⟨-, hheight, -⟩ := TapTable.shape_scale hvertical
  refine ⟨_, rfl, ?_, rfl⟩
  simp only [Resampling.size, hwidth, hheight, UInt32.ofNat_toNat]

/-- A stage to a size with pixels can be put on every image that has pixels of a format with a row
kernel. -/
theorem exists_resampled [Scalar α] {kernel : RowKernel} (target : Size)
    (hkernel : RowKernel.ofFormat? c.format = some kernel) (hwidth : 0 < c.size.width.toNat)
    (hheight : 0 < c.size.height.toNat) (hwidth' : 0 < target.width.toNat)
    (hheight' : 0 < target.height.toNat) (f : Interpolation α) :
    ∃ plan, (c.resampled target f).result = .ok (c.resample plan) := by
  have hcolors := RowKernel.weightColors_pos hkernel
  obtain ⟨horizontal, hhorizontal⟩ :=
    TapTable.exists_scale hwidth hwidth' hcolors kernel.splitsAlpha f
  obtain ⟨vertical, hvertical⟩ :=
    TapTable.exists_scale hheight hheight' hcolors kernel.splitsAlpha f
  exact ⟨_, resampled_of_scale hkernel hhorizontal hvertical⟩

/-- A sharpening stage has the tables of a blur along both axes and keeps its rows. -/
theorem sharpened_eq_ok_iff [Analytic α] {settings : SharpenSettings α} :
    (c.sharpened settings).result = .ok c' ↔
      settings.check = .ok () ∧ settings.sharpens = true ∧
        ∃ kernel horizontal vertical plan, RowKernel.ofFormat? c.format = some kernel ∧
          TapTable.blur c.size.width.toNat settings.radius kernel.weightColors
            kernel.splitsAlpha = .ok horizontal ∧
          TapTable.blur c.size.height.toNat settings.radius kernel.weightColors
            kernel.splitsAlpha = .ok vertical ∧
          (Resampling.build c.size c.format horizontal vertical true :
            Except (SetupError α) Resampling) = .ok plan ∧
          c' = c.sharpen ⟨plan, settings⟩ := by
  constructor
  · intro h
    rw [sharpened, Construction.result_bind] at h
    obtain ⟨_, hcheck, h⟩ := bind_eq_ok_iff.mp h
    cases hsharpens : settings.sharpens with
    | false =>
      simp only [hsharpens, Bool.not_false, if_true, Construction.result_bind,
        Construction.result_ofExcept] at h
      obtain ⟨_, hfail, -⟩ := bind_eq_ok_iff.mp h
      cases hfail
    | true =>
      simp only [hsharpens, Bool.not_true, Bool.false_eq_true, if_false, Construction.result_bind,
        Construction.result_ofExcept, Construction.result_take, Construction.result_reach,
        Construction.result_pure, TapTable.result_buildBlur] at h
      obtain ⟨kernel, hkernel, h⟩ := bind_eq_ok_iff.mp h
      obtain ⟨horizontal, hhorizontal, h⟩ := bind_eq_ok_iff.mp h
      obtain ⟨vertical, hvertical, h⟩ := bind_eq_ok_iff.mp h
      obtain ⟨_, -, h⟩ := bind_eq_ok_iff.mp h
      obtain ⟨plan, hplan, h⟩ := bind_eq_ok_iff.mp h
      cases h
      exact ⟨hcheck, rfl, kernel, horizontal, vertical, plan,
        RowKernel.ofFormat_eq_ok_iff.mp hkernel, hhorizontal, hvertical, hplan, rfl⟩
  · rintro ⟨hcheck, hsharpens, kernel, horizontal, vertical, plan, hkernel, hhorizontal, hvertical,
      hplan, rfl⟩
    rw [sharpened, Construction.result_bind]
    refine bind_eq_ok_iff.mpr ⟨(), hcheck, ?_⟩
    simp only [hsharpens, Bool.not_true, Bool.false_eq_true, if_false, Construction.result_bind,
      Construction.result_ofExcept, Construction.result_take, Construction.result_reach,
      Construction.result_pure, TapTable.result_buildBlur]
    exact bind_eq_ok_iff.mpr ⟨kernel, RowKernel.ofFormat_eq_ok_iff.mpr hkernel,
      bind_eq_ok_iff.mpr ⟨horizontal, hhorizontal, bind_eq_ok_iff.mpr ⟨vertical, hvertical,
        bind_eq_ok_iff.mpr ⟨(), rfl, bind_eq_ok_iff.mpr ⟨plan, hplan, rfl⟩⟩⟩⟩⟩

theorem target_of_sharpened [Analytic α] {settings : SharpenSettings α}
    (h : (c.sharpened settings).result = .ok c') :
    ∃ plan, c' = c.sharpen plan ∧ plan.blur.size = c.size ∧ plan.blur.format = c.format := by
  obtain ⟨-, -, kernel, horizontal, vertical, blur, -, hhorizontal, hvertical, hbuild, rfl⟩ :=
    sharpened_eq_ok_iff.mp h
  obtain ⟨_, -, -, -, -, -, rfl⟩ := Resampling.build_eq_ok_iff.mp hbuild
  obtain ⟨-, hwidth, -⟩ := TapTable.shape_blur hhorizontal
  obtain ⟨-, hheight, -⟩ := TapTable.shape_blur hvertical
  refine ⟨_, rfl, ?_, rfl⟩
  simp only [Resampling.size, hwidth, hheight, UInt32.ofNat_toNat]

theorem shape_of_sharpened [Analytic α] {settings : SharpenSettings α} {plan : Sharpening α}
    (h : (c.sharpened settings).result = .ok (c.sharpen plan)) :
    plan.blur.size = c.size ∧ plan.blur.format = c.format := by
  obtain ⟨_, heq, hsize, hformat⟩ := target_of_sharpened h
  cases heq
  exact ⟨hsize, hformat⟩

/-- A sharpening stage has the tables that its settings and the size of its source ask for. -/
theorem tables_of_sharpened [Analytic α] {settings : SharpenSettings α} {plan : Sharpening α}
    (h : (c.sharpened settings).result = .ok (c.sharpen plan)) :
    RowKernel.ofFormat? c.format = some plan.blur.kernel ∧
      TapTable.blur c.size.width.toNat settings.radius plan.blur.kernel.weightColors
        plan.blur.kernel.splitsAlpha = .ok plan.blur.horizontal ∧
      TapTable.blur c.size.height.toNat settings.radius plan.blur.kernel.weightColors
        plan.blur.kernel.splitsAlpha = .ok plan.blur.vertical := by
  obtain ⟨-, -, kernel, horizontal, vertical, blur, hkernel, hhorizontal, hvertical, hbuild, heq⟩ :=
    sharpened_eq_ok_iff.mp h
  cases heq
  obtain ⟨kernel', hkernel', -, -, -, -, rfl⟩ := Resampling.build_eq_ok_iff.mp hbuild
  rw [hkernel] at hkernel'
  cases hkernel'
  exact ⟨hkernel, hhorizontal, hvertical⟩

end Chain

/-! Stages that cannot be refused. -/

section Sound

variable {α σ : Type} [Analytic α] {settings : SharpenSettings α}

/-- The radius of settings that pass the check and sharpen is a deviation. -/
theorem SharpenSettings.exists_ofSigma? (hcheck : settings.check = .ok ())
    (hsharpens : settings.sharpens = true) : ∃ g, Gaussian.ofSigma? settings.radius = .ok g := by
  unfold check at hcheck
  split at hcheck
  · cases hcheck
  split at hcheck
  · cases hcheck
  case isFalse hradius =>
    simp only [Bool.or_eq_true, Bool.not_eq_true', not_or, Bool.not_eq_false] at hradius
    simp only [sharpens, Bool.and_eq_true] at hsharpens
    rw [Gaussian.ofSigma?, if_neg (by simp [hradius.1, hsharpens.2])]
    exact ⟨_, rfl⟩

theorem TapTable.exists_blur {size colors : Nat} {radius : α} (alpha : Bool) {g : Gaussian α}
    (hg : Gaussian.ofSigma? radius = .ok g) (hsize : 0 < size) (hcolors : 0 < colors) :
    ∃ t, TapTable.blur size radius colors alpha = .ok t := by
  refine ⟨_, map_eq_ok_iff.mpr ⟨_, LooseTable.blur_eq_ok_iff.mpr ⟨?_, g, hg, rfl⟩, rfl⟩⟩
  exact checkAxis_eq_ok hsize hsize hcolors

/-- Sound settings put a sharpening stage on every image that has pixels of a format with a
row kernel. -/
theorem Chain.exists_sharpened {c : Chain α σ} {kernel : RowKernel}
    (hkernel : RowKernel.ofFormat? c.format = some kernel) (hwidth : 0 < c.size.width.toNat)
    (hheight : 0 < c.size.height.toNat) (hcheck : settings.check = .ok ())
    (hsharpens : settings.sharpens = true) :
    ∃ plan, (c.sharpened settings).result = .ok (c.sharpen plan) := by
  obtain ⟨g, hg⟩ := settings.exists_ofSigma? hcheck hsharpens
  have hcolors := RowKernel.weightColors_pos hkernel
  have hchannels := RowKernel.weightColors_add_splitsAlpha hkernel
  obtain ⟨horizontal, hhorizontal⟩ := TapTable.exists_blur kernel.splitsAlpha hg hwidth hcolors
  obtain ⟨vertical, hvertical⟩ := TapTable.exists_blur kernel.splitsAlpha hg hheight hcolors
  obtain ⟨hinh, -, hch, -⟩ := TapTable.shape_blur hhorizontal
  obtain ⟨hinv, -, hcv, -⟩ := TapTable.shape_blur hvertical
  refine ⟨_, sharpened_eq_ok_iff.mpr ⟨hcheck, hsharpens, kernel, horizontal, vertical, _, hkernel,
    hhorizontal, hvertical, Resampling.build_eq_ok_iff.mpr ⟨kernel, hkernel, ?_, ?_, hinh, hinv,
      rfl⟩, rfl⟩⟩
  · rw [hch, hchannels]
  · rw [hcv, hchannels]

end Sound

end Resampler

import Resampler.Proofs.Binary64.Order
import Resampler.Proofs.Resize.Stages

/-!
Which settings are accepted.

Settings are checked once, before anything is built, and the stages check again what
they are given. `Settings.Sound` says what is asked of settings without the checks:
comparisons of doubles, none of which holds of a NaN. Sound settings pass every later
check, so that whether stages can be put on a source depends on the settings, on the
format and on the source having pixels, in this order, and the error tells which of
these it was. The source itself has no part in it: another one of the same size and
format leads to the same chain (`result_forSettings_withBottom`), even if it fails all
requests.
-/

namespace Resampler

namespace Settings

/-- What is asked of settings: a target with pixels, a filter and a factor that name an
interpolation, and a sharpening that is in range. -/
structure Sound (s : Settings Float) : Prop where
  width_pos : 0 < s.width.toNat
  height_pos : 0 < s.height.toNat
  sigma : ∀ sigma, s.filter = .gaussian sigma → 0.0 < sigma ∧ sigma.isFinite = true
  blur : 0.5 < s.blur ∧ s.blur ≤ 2.0
  amount : 0 ≤ s.sharpen.amount.toInt
  radius : s.sharpen.radius.isFinite = true ∧ 0.0 ≤ s.sharpen.radius

end Settings

/-! When the single checks succeed. -/

theorem Gaussian.ofSigma?_eq_ok_iff {sigma : Float} :
    (∃ g, Gaussian.ofSigma? sigma = .ok g) ↔ 0.0 < sigma ∧ sigma.isFinite = true := by
  unfold ofSigma?
  split
  case isTrue hbad =>
    refine ⟨nofun, fun ⟨hpos, hfinite⟩ => ?_⟩
    simp [Scalar.lt, Scalar.isFinite, hpos, hfinite] at hbad
  case isFalse hgood =>
    refine ⟨fun _ => ?_, fun _ => ⟨_, rfl⟩⟩
    simpa [Scalar.lt, Scalar.isFinite] using hgood

theorem Interpolation.withBlur_eq_ok_iff {i : Interpolation Float} {blur : Float} :
    (∃ f, i.withBlur blur = .ok f) ↔ 0.5 < blur ∧ blur ≤ 2.0 := by
  unfold withBlur
  split
  case isTrue hgood =>
    refine ⟨fun _ => ?_, fun _ => ⟨_, rfl⟩⟩
    simpa [Scalar.lt, Scalar.le] using hgood
  case isFalse hbad =>
    refine ⟨nofun, fun ⟨hlo, hhi⟩ => ?_⟩
    simp [Scalar.lt, Scalar.le, hlo, hhi] at hbad

theorem Filter.interpolation_eq_ok_iff {f : Filter Float} :
    (∃ i, f.interpolation = .ok i) ↔
      ∀ sigma, f = .gaussian sigma → 0.0 < sigma ∧ sigma.isFinite = true := by
  cases f with
  | gaussian sigma =>
    simp only [interpolation, map_eq_ok_iff, Filter.gaussian.injEq, forall_eq']
    rw [← Gaussian.ofSigma?_eq_ok_iff]
    exact ⟨fun ⟨_, g, hg, _⟩ => ⟨g, hg⟩, fun ⟨g, hg⟩ => ⟨_, g, hg, rfl⟩⟩
  | cubicSmoother =>
    -- the factor that this filter brings with it is in range
    exact iff_of_true (Interpolation.withBlur_eq_ok_iff.mpr (by decide +kernel)) nofun
  | _ => exact iff_of_true ⟨_, rfl⟩ nofun

namespace Settings

/-- The factor 1 is not checked, but it is in range. -/
theorem interpolation_eq_ok_iff {s : Settings Float} :
    (∃ i, s.interpolation = .ok i) ↔
      (∃ i, s.filter.interpolation = .ok i) ∧ 0.5 < s.blur ∧ s.blur ≤ 2.0 := by
  unfold interpolation
  simp only [bind_eq_ok_iff]
  by_cases hone : Scalar.eq s.blur 1.0 = true
  · simp only [hone, if_true]
    have hunpack := Binary64.unpack_of_beq_one hone
    have hrange : 0.5 < s.blur ∧ s.blur ≤ 2.0 := by
      rw [Binary64.lt_iff_compare, Binary64.le_iff_compare, hunpack,
        ← Binary64.lt_iff_compare, ← Binary64.le_iff_compare]
      decide +kernel
    exact ⟨fun ⟨_, i, hi, _⟩ => ⟨⟨i, hi⟩, hrange⟩, fun ⟨⟨i, hi⟩, _⟩ => ⟨i, i, hi, rfl⟩⟩
  · simp only [hone]
    constructor
    · rintro ⟨f, i, hi, hf⟩
      exact ⟨⟨i, hi⟩, Interpolation.withBlur_eq_ok_iff.mp ⟨f, hf⟩⟩
    · rintro ⟨⟨i, hi⟩, hrange⟩
      obtain ⟨f, hf⟩ := Interpolation.withBlur_eq_ok_iff.mpr hrange
      exact ⟨f, i, hi, hf⟩

end Settings

theorem SharpenSettings.check_eq_ok_iff {s : SharpenSettings Float} :
    s.check = .ok () ↔ 0 ≤ s.amount.toInt ∧ s.radius.isFinite = true ∧ 0.0 ≤ s.radius := by
  unfold check
  split
  case isTrue hnegative =>
    refine ⟨nofun, fun ⟨hamount, _⟩ => ?_⟩
    exact absurd (Int32.lt_iff_toInt_lt.mp hnegative) (Int.not_lt.mpr hamount)
  case isFalse hamount =>
    have hamount' : 0 ≤ s.amount.toInt :=
      Int.not_lt.mp fun h => hamount (Int32.lt_iff_toInt_lt.mpr h)
    simp only [hamount', true_and]
    split
    case isTrue hbad =>
      refine ⟨nofun, fun ⟨hfinite, hle⟩ => ?_⟩
      rw [Binary64.zero_le_iff_not_lt hfinite] at hle
      simp [Scalar.lt, Scalar.isFinite, hfinite, hle] at hbad
    case isFalse hgood =>
      refine iff_of_true rfl ?_
      simp only [Scalar.lt, Scalar.isFinite, Bool.or_eq_true, not_or, Bool.not_eq_true',
        Bool.not_eq_false, decide_eq_true_iff] at hgood
      exact ⟨hgood.1, (Binary64.zero_le_iff_not_lt hgood.1).mpr hgood.2⟩

/-- The checks find out whether settings are sound. -/
theorem Settings.check_eq_ok_iff_sound {s : Settings Float} : s.check = .ok () ↔ s.Sound := by
  have hpos (n : UInt32) : n ≠ 0 ↔ 0 < n.toNat := by
    rw [← UInt32.toNat_inj.ne, Nat.pos_iff_ne_zero]
    rfl
  rw [check_eq_ok_iff, interpolation_eq_ok_iff, Filter.interpolation_eq_ok_iff,
    SharpenSettings.check_eq_ok_iff, hpos, hpos]
  exact ⟨fun ⟨hwidth, hheight, ⟨hsigma, hblur⟩, hamount, hradius⟩ =>
      ⟨hwidth, hheight, hsigma, hblur, hamount, hradius⟩,
    fun h => ⟨h.width_pos, h.height_pos, ⟨h.sigma, h.blur⟩, h.amount, h.radius⟩⟩

/-! What is refused, and with which kind of error. -/

theorem TapTable.scale_of_empty {α : Type} [Scalar α] {input output colors : Nat} {alpha : Bool}
    {f : Interpolation α} (h : input = 0) :
    TapTable.scale input output colors alpha f =
      .error (.parameter (.emptyAxis input output)) := by
  rw [scale, LooseTable.scale, checkAxis, if_pos (.inl h)]
  rfl

/-- If it fails, then for a parameter. -/
def OnlyParameters {α β : Type} (x : Except (SetupError α) β) : Prop :=
  ∀ e, x = .error e → ∃ fault, e = .parameter fault

section

variable {α β γ : Type}

theorem onlyParameters_ok (b : β) : OnlyParameters (.ok b : Except (SetupError α) β) := nofun

theorem onlyParameters_error (fault : ParameterFault α) :
    OnlyParameters (.error (.parameter fault) : Except (SetupError α) β) := by
  rintro _ ⟨⟩
  exact ⟨fault, rfl⟩

theorem OnlyParameters.bind {x : Except (SetupError α) β} {f : β → Except (SetupError α) γ}
    (hx : OnlyParameters x) (hf : ∀ b, OnlyParameters (f b)) : OnlyParameters (x >>= f) := by
  cases x with
  | error e => exact fun e' he => hx e' (by cases he; rfl)
  | ok b => exact hf b

theorem OnlyParameters.ite {p : Prop} [Decidable p] {x y : Except (SetupError α) β}
    (hx : OnlyParameters x) (hy : OnlyParameters y) : OnlyParameters (if p then x else y) := by
  split
  · exact hx
  · exact hy

variable [Analytic α]

theorem Filter.onlyParameters (f : Filter α) : OnlyParameters f.interpolation := by
  cases f with
  | gaussian sigma =>
    rw [interpolation, Gaussian.ofSigma?]
    split
    · exact onlyParameters_error _
    · exact onlyParameters_ok _
  | cubicSmoother => exact .ite (onlyParameters_ok _) (onlyParameters_error _)
  | _ => exact onlyParameters_ok _

theorem Settings.onlyParameters_interpolation (s : Settings α) :
    OnlyParameters s.interpolation :=
  s.filter.onlyParameters.bind fun _ =>
    .ite (onlyParameters_ok _) (.ite (onlyParameters_ok _) (onlyParameters_error _))

theorem Settings.onlyParameters_check (s : Settings α) : OnlyParameters s.check := by
  have hsharpen : OnlyParameters s.sharpen.check :=
    .ite (onlyParameters_error _) (.ite (onlyParameters_error _) (onlyParameters_ok _))
  have hrest : OnlyParameters (s.interpolation >>= fun _ => s.sharpen.check) :=
    s.onlyParameters_interpolation.bind fun _ => hsharpen
  unfold check
  exact .ite (.bind (onlyParameters_error _) fun _ => hrest) hrest

end

namespace Chain

variable {α σ τ : Type}

/-- The same stages over another source. -/
def withBottom (other : Source τ) : Chain α σ → Chain α τ
  | base _ => base other
  | resample below plan => (below.withBottom other).resample plan
  | sharpen below plan => (below.withBottom other).sharpen plan

/-- Before the first request, the source is in the state that it was in. -/
@[simp] theorem origin_start (c : Chain α σ) (s : σ) : c.origin (c.start s) = s := by
  induction c with
  | base src => rfl
  | resample below plan ih => exact ih
  | sharpen below plan ih => exact ih

variable {other : Source τ} {c : Chain α σ}

theorem size_withBottom (hsize : other.size = c.bottom.size) :
    (c.withBottom other).size = c.size := by
  cases c with
  | base src => exact hsize
  | _ => rfl

theorem format_withBottom (hformat : other.format = c.bottom.format) :
    (c.withBottom other).format = c.format := by
  cases c with
  | base src => exact hformat
  | _ => rfl

section

variable (hsize : other.size = c.bottom.size) (hformat : other.format = c.bottom.format)
include hsize hformat

theorem result_withTables_withBottom (horizontal vertical : TapTable) (keepsSource : Bool) :
    ((c.withBottom other).withTables horizontal vertical keepsSource).result =
      withBottom other <$> (c.withTables horizontal vertical keepsSource).result := by
  rw [result_withTables, result_withTables, size_withBottom hsize, format_withBottom hformat,
    ← comp_map]
  rfl

theorem result_resampled_withBottom [Scalar α] (target : Size) (f : Interpolation α) :
    ((c.withBottom other).resampled target f).result =
      withBottom other <$> (c.resampled target f).result := by
  simp only [resampled, Construction.result_bind, Construction.result_ofExcept, map_bind,
    size_withBottom hsize, format_withBottom hformat, result_withTables_withBottom hsize hformat]

variable [Analytic α]

theorem result_sharpened_withBottom (settings : SharpenSettings α) :
    ((c.withBottom other).sharpened settings).result =
      withBottom other <$> (c.sharpened settings).result := by
  simp only [sharpened, Construction.result_bind, Construction.result_ofExcept,
    Construction.result_take, Construction.result_reach, Construction.result_pure,
    Construction.result_ite, map_bind, size_withBottom hsize, format_withBottom hformat]
  refine bind_congr fun _ => ?_
  split
  · rfl
  · simp only [map_bind]
    rfl

theorem staged_withBottom (settings : Settings α) (f : Interpolation α) :
    (c.withBottom other).staged settings f = withBottom other <$> c.staged settings f := by
  unfold staged
  rw [size_withBottom hsize, format_withBottom hformat, result_resampled_withBottom hsize hformat]
  split
  · cases (RowKernel.ofFormat c.format : Except (SetupError α) RowKernel) <;> rfl
  · rfl

/-- Of the source, only its size and its format have a part in what is built on it. -/
theorem result_forSettings_withBottom (settings : Settings α) :
    ((c.withBottom other).forSettings settings).result =
      withBottom other <$> (c.forSettings settings).result := by
  rw [result_forSettings, result_forSettings, map_bind]
  refine bind_congr fun _ => ?_
  rw [map_bind]
  refine bind_congr fun f => ?_
  rw [map_bind, staged_withBottom hsize hformat]
  cases hstaged : c.staged settings f with
  | error e => rfl
  | ok c' =>
    have hbottom := bottom_of_staged hstaged
    change (if _ then ((c'.withBottom other).sharpened settings.sharpen).result else _) =
      withBottom other <$> (if _ then (c'.sharpened settings.sharpen).result else _)
    rw [result_sharpened_withBottom (hbottom ▸ hsize) (hbottom ▸ hformat)]
    split
    · rfl
    · rfl

end

theorem forSettings_of_unsound {c : Chain Float σ} {settings : Settings Float}
    (h : ¬settings.Sound) :
    ∃ fault, (c.forSettings settings).result = .error (.parameter fault) := by
  rw [result_forSettings]
  cases hcheck : settings.check with
  | ok _ => exact (h (Settings.check_eq_ok_iff_sound.mp hcheck)).elim
  | error e =>
    obtain ⟨fault, rfl⟩ := settings.onlyParameters_check e hcheck
    exact ⟨fault, rfl⟩

/-- After the check the stages depend on the first of them. -/
theorem result_forSettings_of_sound (c : Chain Float σ) {settings : Settings Float}
    (h : settings.Sound) :
    ∃ f, (c.forSettings settings).result = (do
      let staged ← c.staged settings f
      if settings.sharpen.sharpens then (staged.sharpened settings.sharpen).result
      else pure staged) := by
  have hcheck := Settings.check_eq_ok_iff_sound.mpr h
  obtain ⟨-, -, ⟨f, hf⟩, -⟩ := Settings.check_eq_ok_iff.mp hcheck
  exact ⟨f, by rw [result_forSettings, hcheck, ok_bind, hf, ok_bind]⟩

theorem forSettings_of_unsupported {c : Chain Float σ} {settings : Settings Float}
    (h : settings.Sound) (hformat : RowKernel.ofFormat? c.format = none) :
    ∃ fault, (c.forSettings settings).result = .error (.unsupported fault) := by
  obtain ⟨f, hresult⟩ := c.result_forSettings_of_sound h
  have hkernel : (RowKernel.ofFormat c.format : Except (SetupError Float) RowKernel) =
      .error (.unsupported (.noRowKernel c.format.name)) := by
    rw [RowKernel.ofFormat, hformat]
  have hstaged : c.staged settings f =
      .error (.unsupported (.noRowKernel c.format.name)) := by
    unfold staged
    split
    · rw [hkernel]
      rfl
    · rw [resampled, Construction.result_bind, Construction.result_ofExcept, hkernel]
      rfl
  exact ⟨_, by rw [hresult, hstaged, error_bind]⟩

theorem forSettings_of_empty {c : Chain Float σ} {settings : Settings Float} {kernel : RowKernel}
    (h : settings.Sound) (hkernel : RowKernel.ofFormat? c.format = some kernel)
    (hempty : c.size.width.toNat = 0 ∨ c.size.height.toNat = 0) :
    ∃ fault, (c.forSettings settings).result = .error (.parameter fault) := by
  obtain ⟨f, hresult⟩ := c.result_forSettings_of_sound h
  have hother : c.size ≠ settings.target := by
    intro hsame
    have hwidth := h.width_pos
    have hheight := h.height_pos
    rw [hsame] at hempty
    simp only [Settings.target] at hempty
    omega
  have hstaged : ∃ fault, c.staged settings f = .error (.parameter fault) := by
    simp only [staged, if_neg hother, resampled, Construction.result_bind,
      Construction.result_ofExcept, RowKernel.ofFormat_eq_ok_iff.mpr hkernel, ok_bind,
      TapTable.result_buildScale]
    -- the horizontal table is made first, and it is made even if there are no rows
    by_cases hwidth : c.size.width.toNat = 0
    · rw [TapTable.scale_of_empty hwidth, error_bind]
      exact ⟨_, rfl⟩
    · obtain ⟨horizontal, hhorizontal⟩ := TapTable.exists_scale (Nat.pos_of_ne_zero hwidth)
        h.width_pos (RowKernel.weightColors_pos hkernel) kernel.splitsAlpha f
      have hheight := hempty.resolve_left hwidth
      have hhorizontal' : TapTable.scale c.size.width.toNat settings.target.width.toNat
          kernel.weightColors kernel.splitsAlpha f = .ok horizontal := hhorizontal
      rw [hhorizontal', ok_bind, TapTable.scale_of_empty hheight, error_bind]
      exact ⟨_, rfl⟩
  obtain ⟨fault, hstaged⟩ := hstaged
  exact ⟨fault, by rw [hresult, hstaged, error_bind]⟩

end Chain

end Resampler

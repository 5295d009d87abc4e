import Resampler.Proofs.Stage.Chained
import Resampler.Proofs.Stage.Places

/-!
Chains in memory.

A stage is built only if memory holds what is taken for it: the weights of its tables and the
rows of its window. `Completed` says of a table or of a chain that all of it was built that way,
which is more than that there is no fault in it. Places in a chain that was completed are
small because of that, and need no assumption of their own (`Chain.Completed.held`).
-/

namespace Resampler

namespace TapTable

/-- The tables that are built, in a memory that holds their weights. -/
inductive Completed : TapTable → Prop where
  | scale {α : Type} [Scalar α] {input output : UInt32} {colors : Nat} {alpha : Bool}
      {f : Interpolation α} {t : TapTable}
      (h : (buildScale input.toNat output.toNat colors alpha f).outcome = .ok t) : Completed t
  | blur {α : Type} [Analytic α] {size : UInt32} {radius : α} {colors : Nat} {alpha : Bool}
      {t : TapTable} (h : (buildBlur size.toNat radius colors alpha).outcome = .ok t) : Completed t

theorem Completed.made {t : TapTable} (h : t.Completed) : t.Made := by
  cases h with
  | scale h => exact .scale (outcome_buildScale_eq_ok_iff.mp h).2
  | blur h => exact .blur (outcome_buildBlur_eq_ok_iff.mp h).2

/-- Confining a table takes no more memory than was taken for the loose one. -/
theorem weightBytes_confine_le (t : LooseTable) :
    weightBytes t.confine.outputSize t.confine.tapCount t.confine.channels ≤
      weightBytes t.windows.size t.tapCount t.channels := by
  rw [LooseTable.outputSize_confine]
  apply Nat.mul_le_mul_left
  apply Nat.mul_le_mul_right
  exact Nat.mul_le_mul_left _ (Nat.min_le_left _ _)

theorem weightBytes_scale_le {α : Type} [Scalar α] {input output colors : Nat} {alpha : Bool}
    {f : Interpolation α} {t : TapTable} (h : scale input output colors alpha f = .ok t) :
    weightBytes t.outputSize t.tapCount t.channels ≤ scaleBytes input output colors alpha f := by
  obtain ⟨loose, hloose, rfl⟩ := map_eq_ok_iff.mp h
  obtain ⟨_, haxis, hloose⟩ := bind_eq_ok_iff.mp hloose
  obtain ⟨hinput, -, hcolors⟩ := pos_of_checkAxis haxis
  cases hloose
  refine (weightBytes_confine_le _).trans_eq ?_
  rw [scaleBytes, if_neg (by omega)]
  simp

theorem weightBytes_blur_le {α : Type} [Analytic α] {size colors : Nat} {radius : α}
    {alpha : Bool} {t : TapTable} (h : blur size radius colors alpha = .ok t) :
    weightBytes t.outputSize t.tapCount t.channels ≤ blurBytes size radius colors alpha := by
  obtain ⟨loose, hloose, rfl⟩ := map_eq_ok_iff.mp h
  obtain ⟨haxis, g, hg, rfl⟩ := LooseTable.blur_eq_ok_iff.mp hloose
  obtain ⟨-, -, hcolors⟩ := pos_of_checkAxis haxis
  refine (weightBytes_confine_le _).trans_eq ?_
  simp only [blurBytes, hg, if_neg hcolors.ne']
  split
  case isTrue => rw [LooseTable.size_windows_wide]; rfl
  case isFalse => simp [LooseTable.narrow]

theorem Completed.held {t : TapTable} (h : t.Completed) : t.Held := by
  cases h with
  | scale h =>
    obtain ⟨hbytes, hmade⟩ := outcome_buildScale_eq_ok_iff.mp h
    exact (weightBytes_scale_le hmade).trans_lt hbytes
  | blur h =>
    obtain ⟨hbytes, hmade⟩ := outcome_buildBlur_eq_ok_iff.mp h
    exact (weightBytes_blur_le hmade).trans_lt hbytes

end TapTable

/-- A window that was taken holds its lines, and the rows of the source if they are kept. -/
theorem Resampling.held_of_windowBytes {plan : Resampling} (hhorizontal : plan.horizontal.Held)
    (hvertical : plan.vertical.Held) (h : ∀ n ∈ plan.windowBytes, n < Bytes.limit) :
    plan.Held where
  horizontal := hhorizontal
  vertical := hvertical
  lines := h _ (by simp [windowBytes])
  sources hkeeps := h _ (by simp [windowBytes, hkeeps])

namespace Chain

variable {α σ : Type} {c c' : Chain α σ}

/-- Memory holds what was taken when the stages were made. -/
def Held : Chain α σ → Prop
  | base _ => True
  | resample below plan => below.Held ∧ plan.Held
  | sharpen below plan => below.Held ∧ plan.blur.Held

/-- What has been found out when a stage with given tables is built. -/
theorem exists_of_outcome_withTables {horizontal vertical : TapTable} {keepsSource : Bool}
    (h : (c.withTables horizontal vertical keepsSource).outcome = .ok c') :
    ∃ plan, c' = c.resample plan ∧ plan.horizontal = horizontal ∧ plan.vertical = vertical ∧
      ∀ n ∈ plan.windowBytes, n < Bytes.limit := by
  obtain ⟨plan, hplan, h⟩ := Construction.outcome_bind_eq_ok_iff.mp h
  obtain ⟨_, htake, h⟩ := Construction.outcome_bind_eq_ok_iff.mp h
  obtain ⟨_, -, h⟩ := Construction.outcome_bind_eq_ok_iff.mp h
  cases Construction.result_of_outcome h
  obtain ⟨_, -, -, -, -, -, rfl⟩ :=
    Resampling.build_eq_ok_iff.mp (Construction.result_of_outcome hplan)
  exact ⟨_, rfl, rfl, rfl, (Construction.outcome_eq_ok_iff.mp htake).1⟩

theorem exists_of_outcome_resampled [Scalar α] {target : Size} {f : Interpolation α}
    (h : (c.resampled target f).outcome = .ok c') :
    ∃ horizontal vertical, TapTable.Completed horizontal ∧ TapTable.Completed vertical ∧
      (c.withTables horizontal vertical false).outcome = .ok c' := by
  obtain ⟨kernel, -, h⟩ := Construction.outcome_bind_eq_ok_iff.mp h
  obtain ⟨horizontal, hhorizontal, h⟩ := Construction.outcome_bind_eq_ok_iff.mp h
  obtain ⟨vertical, hvertical, h⟩ := Construction.outcome_bind_eq_ok_iff.mp h
  exact ⟨horizontal, vertical, .scale hhorizontal, .scale hvertical, h⟩

variable [Analytic α]

/-- A sharpening stage is built with tables and a window that memory holds. -/
theorem exists_of_outcome_sharpened {settings : SharpenSettings α}
    (h : (c.sharpened settings).outcome = .ok c') :
    ∃ plan, c' = c.sharpen plan ∧ plan.blur.Held := by
  obtain ⟨_, -, h⟩ := Construction.outcome_bind_eq_ok_iff.mp h
  simp only at h
  -- settings that would not sharpen are refused here
  split at h
  · obtain ⟨_, hfail, -⟩ := Construction.outcome_bind_eq_ok_iff.mp h
    cases Construction.result_of_outcome hfail
  · obtain ⟨kernel, -, h⟩ := Construction.outcome_bind_eq_ok_iff.mp h
    obtain ⟨horizontal, hhorizontal, h⟩ := Construction.outcome_bind_eq_ok_iff.mp h
    obtain ⟨vertical, hvertical, h⟩ := Construction.outcome_bind_eq_ok_iff.mp h
    obtain ⟨_, -, h⟩ := Construction.outcome_bind_eq_ok_iff.mp h
    obtain ⟨plan, hplan, h⟩ := Construction.outcome_bind_eq_ok_iff.mp h
    obtain ⟨_, htake, h⟩ := Construction.outcome_bind_eq_ok_iff.mp h
    obtain ⟨_, -, h⟩ := Construction.outcome_bind_eq_ok_iff.mp h
    cases Construction.result_of_outcome h
    obtain ⟨_, -, -, -, -, -, rfl⟩ :=
      Resampling.build_eq_ok_iff.mp (Construction.result_of_outcome hplan)
    exact ⟨_, rfl, Resampling.held_of_windowBytes (TapTable.Completed.blur hhorizontal).held
      (TapTable.Completed.blur hvertical).held (Construction.outcome_eq_ok_iff.mp htake).1⟩

/-- The chains that are built over a source, stage by stage, in a memory that holds what is taken
for each. -/
inductive Completed : Chain α σ → Prop
  | base (src : Source σ) : Completed (base src)
  | toSize {below c : Chain α σ} {target : Size} {f : Interpolation α} (hbelow : Completed below)
      (h : (below.resampled target f).outcome = .ok c) : Completed c
  | ofTables {below c : Chain α σ} {horizontal vertical : TapTable} {keepsSource : Bool}
      (hbelow : Completed below) (hhorizontal : horizontal.Completed)
      (hvertical : vertical.Completed)
      (h : (below.withTables horizontal vertical keepsSource).outcome = .ok c) : Completed c
  | sharpened {below c : Chain α σ} {settings : SharpenSettings α} (hbelow : Completed below)
      (h : (below.sharpened settings).outcome = .ok c) : Completed c

theorem Completed.built (h : c.Completed) : c.Built := by
  induction h with
  | base src => exact .base src
  | toSize _ h ih =>
    have hresult := Construction.result_of_outcome h
    obtain ⟨plan, rfl, -⟩ := target_of_resampled hresult
    exact .resample ih (.toSize hresult)
  | ofTables _ hhorizontal hvertical h ih =>
    have hresult := Construction.result_of_outcome h
    obtain ⟨plan, -, rfl⟩ := withTables_eq_ok_iff.mp hresult
    exact .resample ih (.ofTables hhorizontal.made hvertical.made hresult)
  | sharpened _ h ih =>
    have hresult := Construction.result_of_outcome h
    obtain ⟨plan, rfl, -⟩ := target_of_sharpened hresult
    exact .sharpen ih hresult

/-- Memory holds what was taken for a chain that was completed. -/
theorem Completed.held (h : c.Completed) : c.Held := by
  induction h with
  | base src => trivial
  | toSize _ h ih =>
    obtain ⟨_, _, hhorizontal, hvertical, h⟩ := exists_of_outcome_resampled h
    obtain ⟨plan, rfl, rfl, rfl, hwindow⟩ := exists_of_outcome_withTables h
    exact ⟨ih, Resampling.held_of_windowBytes hhorizontal.held hvertical.held hwindow⟩
  | ofTables _ hhorizontal hvertical h ih =>
    obtain ⟨plan, rfl, rfl, rfl, hwindow⟩ := exists_of_outcome_withTables h
    exact ⟨ih, Resampling.held_of_windowBytes hhorizontal.held hvertical.held hwindow⟩
  | sharpened _ h ih =>
    obtain ⟨plan, rfl, hplan⟩ := exists_of_outcome_sharpened h
    exact ⟨ih, hplan⟩

end Chain

end Resampler

import Resampler.Setup.Construction

/-!
Outcomes of construction.

What a construction results in does not depend on the milestones that it passes or on
the memory that it takes. The equations below read its result off step by step, and turn
a result that is there into the results of the steps. The same is done for its outcome, where
memory counts: something is built exactly if it is the result and memory holds all runs that
are taken on the way (`Construction.outcome_eq_ok_iff`), and this can be told step by step
(`Construction.outcome_bind_eq_ok_iff`).
-/

namespace Resampler

section Except

variable {ε β γ : Type} {x : Except ε β}

theorem bind_eq_ok_iff {f : β → Except ε γ} {c : γ} :
    x >>= f = .ok c ↔ ∃ b, x = .ok b ∧ f b = .ok c := by
  cases x with
  | error e => simp [bind, Except.bind]
  | ok b => simp [bind, Except.bind]

theorem ok_bind (b : β) (f : β → Except ε γ) : (Except.ok b >>= f) = f b := rfl

theorem error_bind (e : ε) (f : β → Except ε γ) : (Except.error e >>= f) = .error e := rfl

theorem map_eq_ok_iff {f : β → γ} {c : γ} : x.map f = .ok c ↔ ∃ b, x = .ok b ∧ f b = c := by
  cases x with
  | error e => simp [Except.map]
  | ok b => simp [Except.map]

theorem mapError_eq_ok_iff {δ : Type} {f : ε → δ} {b : β} {y : Except ε β} :
    y.mapError f = .ok b ↔ y = .ok b := by
  cases y with
  | error e => exact ⟨nofun, nofun⟩
  | ok b' =>
    rw [Except.ok.injEq]
    exact ⟨fun h => by cases h; rfl, fun h => by rw [h]; rfl⟩

theorem eq_ok_of_toOption {b : β} (h : x.toOption = some b) : x = .ok b := by
  cases x with
  | error e => cases h
  | ok _ =>
    cases h
    rfl

end Except

namespace Construction

variable {α β γ : Type}

@[simp] theorem result_bind (c : Construction α β) (f : β → Construction α γ) :
    (c >>= f).result = c.result >>= fun b => (f b).result := by
  change (Construction.bind c f).result = _
  unfold Construction.bind
  cases c.result <;> rfl

@[simp] theorem result_pure (b : β) : (pure b : Construction α β).result = .ok b := rfl

@[simp] theorem result_ofExcept (r : Except (SetupError α) β) : (ofExcept r).result = r := rfl

@[simp] theorem result_reach (m : Milestone α) : (reach m).result = .ok () := rfl

@[simp] theorem result_take (runs : List Nat) : (take runs : Construction α Unit).result = .ok () :=
  rfl

@[simp] theorem held_pure (b : β) : (pure b : Construction α β).Held := List.forall_mem_nil _

@[simp] theorem held_ofExcept (r : Except (SetupError α) β) : (ofExcept r).Held :=
  List.forall_mem_nil _

@[simp] theorem held_reach (m : Milestone α) : (reach m).Held := List.forall_mem_nil _

@[simp] theorem held_take (runs : List Nat) :
    (take runs : Construction α Unit).Held ↔ ∀ n ∈ runs, n < Bytes.limit := .rfl

theorem result_ite (p : Prop) [Decidable p] (c d : Construction α β) :
    (if p then c else d).result = if p then c.result else d.result := by
  split <;> rfl

/-- What is built is the result, in a memory that holds all that is taken. -/
theorem outcome_eq_ok_iff {c : Construction α β} {b : β} :
    c.outcome = .ok b ↔ c.Held ∧ c.result = .ok b := by
  unfold outcome
  split
  case isTrue hheld => rw [mapError_eq_ok_iff, and_iff_right hheld]
  case isFalse hheld => simp [hheld]

theorem result_of_outcome {c : Construction α β} {b : β} (h : c.outcome = .ok b) :
    c.result = .ok b := (outcome_eq_ok_iff.mp h).2

theorem held_bind_iff {c : Construction α β} {f : β → Construction α γ} {b : β}
    (h : c.result = .ok b) : (c >>= f).Held ↔ c.Held ∧ (f b).Held := by
  change (Construction.bind c f).Held ↔ _
  unfold Construction.bind
  rw [h]
  simp only [Held, List.mem_append, or_imp, forall_and]

/-- Two constructions in a row build something if each of them does. -/
theorem outcome_bind_eq_ok_iff {c : Construction α β} {f : β → Construction α γ} {x : γ} :
    (c >>= f).outcome = .ok x ↔ ∃ b, c.outcome = .ok b ∧ (f b).outcome = .ok x := by
  simp only [outcome_eq_ok_iff, result_bind]
  constructor
  · rintro ⟨hheld, hresult⟩
    obtain ⟨b, hb, hx⟩ := bind_eq_ok_iff.mp hresult
    obtain ⟨hfirst, hnext⟩ := (held_bind_iff hb).mp hheld
    exact ⟨b, ⟨hfirst, hb⟩, hnext, hx⟩
  · rintro ⟨b, ⟨hfirst, hb⟩, hnext, hx⟩
    exact ⟨(held_bind_iff hb).mpr ⟨hfirst, hnext⟩, bind_eq_ok_iff.mpr ⟨b, hb, hx⟩⟩

end Construction

namespace TapTable

variable {α : Type}

section Scale

variable [Scalar α] (input output colors : Nat) (alpha : Bool) (f : Interpolation α)

@[simp] theorem result_buildScale :
    (buildScale input output colors alpha f).result = scale input output colors alpha f := by
  simp only [buildScale, scale, Construction.result_bind, Construction.result_ofExcept,
    Construction.result_take, Construction.result_reach, Construction.result_pure]
  cases LooseTable.scale input output colors alpha f <;> rfl

variable {input output colors alpha f} {t : TapTable}

/-- A table that changes the number of samples is built exactly if memory holds its weights. -/
theorem outcome_buildScale_eq_ok_iff :
    (buildScale input output colors alpha f).outcome = .ok t ↔
      scaleBytes input output colors alpha f < Bytes.limit ∧
        scale input output colors alpha f = .ok t := by
  rw [Construction.outcome_eq_ok_iff, result_buildScale]
  refine and_congr_left fun h => ?_
  obtain ⟨loose, hloose, -⟩ := map_eq_ok_iff.mp h
  rw [buildScale, Construction.held_bind_iff hloose, Construction.held_bind_iff rfl,
    Construction.held_bind_iff rfl]
  simp

end Scale

section Blur

variable [Analytic α] (size : Nat) (radius : α) (colors : Nat) (alpha : Bool)

@[simp] theorem result_buildBlur :
    (buildBlur size radius colors alpha).result = blur size radius colors alpha := by
  simp only [buildBlur, blur, Construction.result_bind, Construction.result_ofExcept,
    Construction.result_take, Construction.result_reach, Construction.result_pure, LooseTable.blur]
  cases (checkAxis size size colors : Except (SetupError α) Unit) with
  | error e => rfl
  | ok _ =>
    cases Gaussian.ofSigma? radius <;> rfl

variable {size radius colors alpha} {t : TapTable}

/-- A table that blurs is built exactly if memory holds its weights. -/
theorem outcome_buildBlur_eq_ok_iff :
    (buildBlur size radius colors alpha).outcome = .ok t ↔
      blurBytes size radius colors alpha < Bytes.limit ∧
        blur size radius colors alpha = .ok t := by
  rw [Construction.outcome_eq_ok_iff, result_buildBlur]
  refine and_congr_left fun h => ?_
  obtain ⟨loose, hloose, -⟩ := map_eq_ok_iff.mp h
  obtain ⟨_, -, hkernel⟩ := bind_eq_ok_iff.mp hloose
  obtain ⟨g, hg, -⟩ := bind_eq_ok_iff.mp hkernel
  rw [buildBlur, Construction.held_bind_iff hloose, Construction.held_bind_iff rfl,
    Construction.held_bind_iff hg, Construction.held_bind_iff rfl]
  simp

end Blur

end TapTable

end Resampler

import Resampler.Proofs.Setup.Outcome

/-!
Tap tables inside their axis.

Row kernels look samples up by position and have no answer where there is none. What
keeps them inside a row is a property of the tables alone: every window of a
confined table lies on its axis and has a weight for each channel of each tap.
Confining a loose table always gives a confined one, whatever numbers its windows
were computed from, so the property holds of every table that can be made. In a
table that blurs, each window also contains the sample that it is centered on.
-/

namespace Resampler

namespace TapTable

/-- The window of output sample `i`, an empty one where there is none. -/
def window (t : TapTable) (i : Nat) : Taps := t.windows.getD i default

/-- The weight of channel `c` of tap `j` in the window of output sample `i`. -/
def weight (t : TapTable) (i j c : Nat) : Int := (t.window i).weights.getD (j * t.channels + c) 0

theorem taps?_eq_window {t : TapTable} {i : Nat} (h : i < t.outputSize) :
    t.taps? i = some (t.window i) := by
  simp only [outputSize] at h
  simp [taps?, window, h]

/-- Every window lies on the axis and has a weight for each channel of each tap. -/
structure Confined (t : TapTable) : Prop where
  inside : ∀ i < t.outputSize, (t.window i).start + t.tapCount ≤ t.inputSize
  size_weights : ∀ i < t.outputSize, (t.window i).weights.size = t.tapCount * t.channels

/-- Every window contains the sample that has its own place on the axis. -/
def Centered (t : TapTable) : Prop :=
  ∀ i < t.outputSize, (t.window i).start ≤ i ∧ i < (t.window i).start + t.tapCount

/-- Input sample `j` lies in the window of output sample `i`. -/
def Covers (t : TapTable) (i j : Nat) : Prop :=
  (t.window i).start ≤ j ∧ j < (t.window i).start + t.tapCount

theorem covers_tap (t : TapTable) (i : Nat) {j : Nat} (h : j < t.tapCount) :
    t.Covers i ((t.window i).start + j) :=
  ⟨Nat.le_add_right _ _, Nat.add_lt_add_left h _⟩

/-- The samples of a window lie on the axis. -/
theorem Confined.lt_of_covers {t : TapTable} (ht : t.Confined) {i j : Nat} (hi : i < t.outputSize)
    (h : t.Covers i j) : j < t.inputSize :=
  Nat.lt_of_lt_of_le h.2 (ht.inside i hi)

/-- No window starts before those of earlier samples. -/
def Ascending (t : TapTable) : Prop :=
  ∀ i j, i ≤ j → j < t.outputSize → (t.window i).start ≤ (t.window j).start

end TapTable

namespace LooseTaps

theorem size_foldl_modify {α β : Type} (f : α → Nat) (g : α → β → β) (xs : List α) (a : Array β) :
    (xs.foldl (fun acc x => acc.modify (f x) (g x)) a).size = a.size := by
  induction xs generalizing a with
  | nil => rfl
  | cons x xs ih => rw [List.foldl_cons, ih, Array.size_modify]

@[simp] theorem size_weights_confine (inputSize tapCount channels : Nat) (e : LooseTaps) :
    (confine inputSize tapCount channels e).weights.size = min tapCount inputSize * channels := by
  simp only [confine]
  rw [size_foldl_modify, Array.size_replicate]

@[simp] theorem start_confine (inputSize tapCount channels : Nat) (e : LooseTaps) :
    (confine inputSize tapCount channels e).start =
      (confinedStart inputSize (min tapCount inputSize) e.start).toNat := rfl

end LooseTaps

namespace LooseTable

@[simp] theorem outputSize_confine (t : LooseTable) : t.confine.outputSize = t.windows.size := by
  simp [confine, TapTable.outputSize]

theorem window_confine (t : LooseTable) {i : Nat} (h : i < t.windows.size) :
    t.confine.window i = LooseTaps.confine t.inputSize t.tapCount t.channels t.windows[i] := by
  simp [confine, TapTable.window, h]

/-- Confining a table moves every window onto the axis. -/
theorem confined_confine (t : LooseTable) : t.confine.Confined where
  inside i hi := by
    rw [outputSize_confine] at hi
    rw [window_confine t hi, LooseTaps.start_confine, LooseTaps.confinedStart]
    simp only [confine]
    omega
  size_weights i hi := by
    rw [outputSize_confine] at hi
    rw [window_confine t hi, LooseTaps.size_weights_confine]
    rfl

theorem ascending_confine (t : LooseTable)
    (h : ∀ i j (hi : i < t.windows.size) (hj : j < t.windows.size), i ≤ j →
      t.windows[i].start ≤ t.windows[j].start) :
    t.confine.Ascending := by
  intro i j hij hj
  rw [outputSize_confine] at hj
  have hi := Nat.lt_of_le_of_lt hij hj
  have hstart := h i j hi hj hij
  rw [window_confine t hi, window_confine t hj, LooseTaps.start_confine, LooseTaps.start_confine,
    LooseTaps.confinedStart, LooseTaps.confinedStart]
  omega

end LooseTable

namespace TapTable

/-- The tables that can be made: for a change of size and for a blur, over any numbers. -/
inductive Made : TapTable → Prop where
  | scale {α : Type} [Scalar α] {input output : UInt32} {colors : Nat} {alpha : Bool}
      {f : Interpolation α} {t : TapTable}
      (h : TapTable.scale input.toNat output.toNat colors alpha f = .ok t) : Made t
  | blur {α : Type} [Analytic α] {size : UInt32} {radius : α} {colors : Nat} {alpha : Bool}
      {t : TapTable} (h : TapTable.blur size.toNat radius colors alpha = .ok t) : Made t

theorem Made.confined {t : TapTable} (h : t.Made) : t.Confined := by
  -- both ways end with confining, which needs nothing of the loose table
  cases h with
  | scale h =>
    obtain ⟨loose, -, rfl⟩ := map_eq_ok_iff.mp h
    exact loose.confined_confine
  | blur h =>
    obtain ⟨loose, -, rfl⟩ := map_eq_ok_iff.mp h
    exact loose.confined_confine

theorem shape_scale {α : Type} [Scalar α] {input output colors : Nat} {alpha : Bool}
    {f : Interpolation α} {t : TapTable} (h : scale input output colors alpha f = .ok t) :
    t.inputSize = input ∧ t.outputSize = output ∧ t.channels = colors + alpha.toNat := by
  obtain ⟨loose, hloose, rfl⟩ := map_eq_ok_iff.mp h
  obtain ⟨_, -, hloose⟩ := bind_eq_ok_iff.mp hloose
  cases hloose
  simp [LooseTable.confine, TapTable.outputSize]

theorem tapCount_scale {α : Type} [Scalar α] {input output colors : Nat} {alpha : Bool}
    {f : Interpolation α} {t : TapTable} (h : scale input output colors alpha f = .ok t) :
    t.tapCount = min (ScaleAxis.of input output f).tapCount input := by
  obtain ⟨loose, hloose, rfl⟩ := map_eq_ok_iff.mp h
  obtain ⟨_, -, hloose⟩ := bind_eq_ok_iff.mp hloose
  cases hloose
  rfl

/-- Each window is what confining makes of the words of its kernel. -/
theorem window_scale {α : Type} [Scalar α] {input output colors : Nat} {alpha : Bool}
    {f : Interpolation α} {t : TapTable} (h : scale input output colors alpha f = .ok t) {i : Nat}
    (hi : i < output) : t.window i =
      LooseTaps.confine input (ScaleAxis.of input output f).tapCount (colors + alpha.toNat)
        ⟨(ScaleAxis.of input output f).start i,
          interleave colors ((ScaleAxis.of input output f).weights f i)
            (if alpha then some ((ScaleAxis.of input output f).weights f.forAlpha i) else none)⟩ := by
  obtain ⟨loose, hloose, rfl⟩ := map_eq_ok_iff.mp h
  obtain ⟨_, -, hloose⟩ := bind_eq_ok_iff.mp hloose
  cases hloose
  rw [LooseTable.window_confine _ (by simpa using hi)]
  simp

end TapTable

namespace FixedPoint

@[simp] theorem length_quantize {α : Type} [Scalar α] (ws : List α) :
    (quantize ws).length = ws.length := by
  simp [quantize]

@[simp] theorem length_normalize {α : Type} [Scalar α] (ws : List α) :
    (normalize ws).length = ws.length := by
  simp only [normalize]
  split <;> simp [impulse]

end FixedPoint

namespace Gaussian

variable {α : Type} [Analytic α]

@[simp] theorem length_weights (g : Gaussian α) : g.weights.length = 2 * g.reach + 1 := by
  simp [weights, DiscreteKernel.full]

end Gaussian

namespace LooseTable

variable {α : Type} [Analytic α]

theorem blur_eq_ok_iff {size : Nat} {radius : α} {colors : Nat} {alpha : Bool} {t : LooseTable} :
    blur size radius colors alpha = .ok t ↔
      (checkAxis size size colors : Except (SetupError α) Unit) = .ok () ∧
        ∃ g, Gaussian.ofSigma? radius = .ok g ∧
          t = if coversAxis g.reach size then wide g size (colors + alpha.toNat)
            else narrow g size (colors + alpha.toNat) := by
  unfold blur
  rw [bind_eq_ok_iff]
  constructor
  · rintro ⟨_, haxis, h⟩
    obtain ⟨g, hg, h⟩ := bind_eq_ok_iff.mp h
    cases h
    exact ⟨haxis, g, hg, rfl⟩
  · rintro ⟨haxis, g, hg, rfl⟩
    exact ⟨(), haxis, bind_eq_ok_iff.mpr ⟨g, hg, rfl⟩⟩

@[simp] theorem size_windows_wide (g : Gaussian α) (size channels : Nat) :
    (wide g size channels).windows.size = size := by
  simp only [wide, wideWeights]
  split <;> simp_all

/-- A blur of a whole axis starts every window at its beginning. -/
theorem centered_wide (g : Gaussian α) (size channels : Nat) :
    (wide g size channels).confine.Centered := by
  intro i hi
  rw [outputSize_confine] at hi
  rw [window_confine _ hi, LooseTaps.start_confine]
  rw [size_windows_wide] at hi
  simp only [wide, confine, LooseTaps.confinedStart, List.getElem_toArray, List.getElem_map]
  omega

/-- A narrow blur has its center in the middle of the window, which an end of the axis moves
inwards only as far as the center stays within. -/
theorem centered_narrow (g : Gaussian α) {size channels : Nat}
    (h : coversAxis g.reach size = false) :
    (narrow g size channels).confine.Centered := by
  intro i hi
  rw [outputSize_confine] at hi
  rw [window_confine _ hi, LooseTaps.start_confine]
  simp only [coversAxis, decide_eq_false_iff_not] at h
  simp only [narrow, List.size_toArray, List.length_map, List.length_range] at hi
  -- the window has `2 * reach + 1` taps and the axis more samples than `2 * reach`, so that
  -- confining neither cuts the window nor moves it by more than `reach`
  simp only [narrow, confine, LooseTaps.confinedStart, List.getElem_toArray, List.getElem_map,
    List.getElem_range, FixedPoint.length_quantize, Gaussian.length_weights]
  omega

theorem ascending_wide (g : Gaussian α) (size channels : Nat) :
    (wide g size channels).confine.Ascending := by
  apply ascending_confine
  intro i j hi hj _
  simp [wide]

theorem ascending_narrow (g : Gaussian α) (size channels : Nat) :
    (narrow g size channels).confine.Ascending := by
  apply ascending_confine
  intro i j hi hj hij
  simp only [narrow, List.getElem_toArray, List.getElem_map, List.getElem_range]
  omega

end LooseTable

namespace TapTable

variable {α : Type} [Analytic α]

/-- The shape of a table that blurs, and where its windows lie. -/
theorem shape_blur {size : Nat} {radius : α} {colors : Nat} {alpha : Bool} {t : TapTable}
    (h : blur size radius colors alpha = .ok t) :
    t.inputSize = size ∧ t.outputSize = size ∧ t.channels = colors + alpha.toNat ∧ t.Centered := by
  obtain ⟨loose, hloose, rfl⟩ := map_eq_ok_iff.mp h
  obtain ⟨-, g, -, rfl⟩ := LooseTable.blur_eq_ok_iff.mp hloose
  rw [LooseTable.outputSize_confine]
  split
  case isTrue =>
    exact ⟨rfl, LooseTable.size_windows_wide g size _, rfl, LooseTable.centered_wide g size _⟩
  case isFalse hnarrow =>
    refine ⟨rfl, ?_, rfl, LooseTable.centered_narrow g (by simpa using hnarrow)⟩
    simp [LooseTable.narrow]

/-- The windows of a blur move along with the samples that they are centered on. -/
theorem ascending_blur {size : Nat} {radius : α} {colors : Nat} {alpha : Bool} {t : TapTable}
    (h : blur size radius colors alpha = .ok t) : t.Ascending := by
  obtain ⟨loose, hloose, rfl⟩ := map_eq_ok_iff.mp h
  obtain ⟨-, g, -, rfl⟩ := LooseTable.blur_eq_ok_iff.mp hloose
  split
  · exact LooseTable.ascending_wide g size _
  · exact LooseTable.ascending_narrow g size _

end TapTable

end Resampler

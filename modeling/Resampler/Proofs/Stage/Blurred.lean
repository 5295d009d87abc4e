import Resampler.Proofs.Stage.Missing

/-!
Where the windows of a blur lie.

The window of a blurred sample reaches as far to one side of it as to the other, and on a short
axis it is the whole axis. In between the ends of the axis it moves along with its sample, and at
an end it stays (`TapTable.Slides`), so that it never leaves the axis and never loses its own
sample. That is what a sharpening stage rests on: it asks its source for rows of the source only,
and once they are there the sharp row is one of them.
-/

namespace Resampler

/-- The windows of a blur of `size` samples, `reach` of them to either side of its own sample. -/
structure TapTable.Slides (t : TapTable) (size reach : Nat) : Prop where
  inputSize_eq : t.inputSize = size
  outputSize_eq : t.outputSize = size
  tapCount_le : t.tapCount ≤ size
  inside : ∀ i < size, (t.window i).start + t.tapCount ≤ size
  centered : t.Centered
  ascending : t.Ascending
  /-- a window moves along with its sample where the ends of the axis let it -/
  narrow : 2 * reach < size → t.tapCount = 2 * reach + 1 ∧ ∀ i < size,
    ((t.window i).start : Int) = max 0 (min ((i : Int) - reach) ((size : Int) - t.tapCount))
  /-- a window that is no shorter than the axis is all of it -/
  wide : size ≤ 2 * reach → t.tapCount = size ∧ ∀ i < size, (t.window i).start = 0

namespace LooseTable

variable {α : Type} [Analytic α] {size : Nat}

theorem slides_wide (g : Gaussian α) (channels : Nat) (h : size ≤ 2 * g.reach) :
    (wide g size channels).confine.Slides size g.reach := by
  have hwindows : (wide g size channels).windows.size = size := size_windows_wide g size channels
  have houtput : (wide g size channels).confine.outputSize = size :=
    (outputSize_confine _).trans hwindows
  have htaps : (wide g size channels).confine.tapCount = size := min_self size
  have hstart (i : Nat) (hi : i < size) : ((wide g size channels).confine.window i).start = 0 := by
    rw [window_confine _ (by rwa [hwindows]), LooseTaps.start_confine]
    simp only [wide, LooseTaps.confinedStart, List.getElem_toArray, List.getElem_map]
    omega
  exact {
    inputSize_eq := rfl
    outputSize_eq := houtput
    tapCount_le := htaps.le
    inside := fun i hi => by rw [hstart i hi, htaps, Nat.zero_add]
    centered := centered_wide g size channels
    ascending := ascending_wide g size channels
    narrow := fun hnarrow => by omega
    wide := fun _ => ⟨htaps, hstart⟩ }

theorem slides_narrow (g : Gaussian α) (channels : Nat) (h : 2 * g.reach < size) :
    (narrow g size channels).confine.Slides size g.reach := by
  have hwindows : (narrow g size channels).windows.size = size := by simp [narrow]
  have houtput : (narrow g size channels).confine.outputSize = size :=
    (outputSize_confine _).trans hwindows
  have htaps : (narrow g size channels).confine.tapCount = 2 * g.reach + 1 := by
    simp only [narrow, confine, FixedPoint.length_quantize, Gaussian.length_weights]
    omega
  have hstart (i : Nat) (hi : i < size) :
      (((narrow g size channels).confine.window i).start : Int) =
        max 0 (min ((i : Int) - g.reach) ((size : Int) - (2 * g.reach + 1 : Nat))) := by
    rw [window_confine _ (by rwa [hwindows]), LooseTaps.start_confine]
    simp only [narrow, LooseTaps.confinedStart, List.getElem_toArray, List.getElem_map,
      List.getElem_range, FixedPoint.length_quantize, Gaussian.length_weights]
    omega
  exact {
    inputSize_eq := rfl
    outputSize_eq := houtput
    tapCount_le := by omega
    inside := fun i hi => by
      have hi' := hstart i hi
      omega
    centered := centered_narrow g (decide_eq_false (by omega))
    ascending := ascending_narrow g size channels
    narrow := fun _ => ⟨htaps, fun i hi => by rw [htaps, hstart i hi]⟩
    wide := fun hwide => by omega }

end LooseTable

/-- The windows of every blur slide along its axis. -/
theorem TapTable.slides_blur {α : Type} [Analytic α] {size : Nat} {radius : α} {colors : Nat}
    {alpha : Bool} {g : Gaussian α} (hg : Gaussian.ofSigma? radius = .ok g) {t : TapTable}
    (h : blur size radius colors alpha = .ok t) : t.Slides size g.reach := by
  obtain ⟨loose, hloose, rfl⟩ := map_eq_ok_iff.mp h
  obtain ⟨-, g', hg', rfl⟩ := LooseTable.blur_eq_ok_iff.mp hloose
  obtain rfl : g = g' := Except.ok.inj (hg.symm.trans hg')
  split
  case isTrue hwide => exact LooseTable.slides_wide g _ (of_decide_eq_true hwide)
  case isFalse hnarrow =>
    exact LooseTable.slides_narrow g _ (Nat.lt_of_not_le fun h => hnarrow (decide_eq_true h))

namespace Source

variable {σ : Type} {src : Source σ}

theorem length_answers_le (src : Source σ) (y n : Nat) (s : σ) :
    (src.fetchRows y n s).answers.length ≤ n := by
  cases hr : (src.fetchRows y n s).result with
  | ok _ =>
    rw [Fetched.answers_of_ok hr, List.length_map, length_fetchRows_of_ok hr]
  | error e =>
    have hlt := length_fetchRows_lt_of_error hr
    rw [Fetched.answers_of_error hr, List.length_append, List.length_map, List.length_singleton]
    omega

/-- Rows are asked for one after the other. -/
theorem exists_of_mem_inquiries {y : Nat} {answers : List (Except Failure Bytes)}
    {a : Request × Except Failure Bytes} (h : a ∈ src.inquiries y answers) :
    ∃ i < answers.length, a.1 = src.line (y + i) := by
  induction answers generalizing y with
  | nil => cases h
  | cons answer answers ih =>
    rcases List.mem_cons.mp h with rfl | hrest
    · exact ⟨0, Nat.succ_pos _, rfl⟩
    · obtain ⟨i, hi, heq⟩ := ih hrest
      exact ⟨i + 1, Nat.succ_lt_succ hi, by rw [heq, show y + 1 + i = y + (i + 1) by omega]⟩

/-- The failure that ends it is the answer to one of the inquiries. -/
theorem exists_mem_inquiries_of_error {τ : Type} (src : Source σ) (y : Nat) {fetch : Fetched τ}
    {e : Failure} (h : fetch.result = .error e) :
    ∃ z, (src.line z, .error e) ∈ src.inquiries y fetch.answers := by
  have hlen : fetch.rows.length < fetch.answers.length := by
    rw [Fetched.answers_of_error h, List.length_append, List.length_map, List.length_singleton]
    exact Nat.lt_succ_self _
  have hmem : (src.line (y + fetch.rows.length), fetch.answers[fetch.rows.length]) ∈
      src.inquiries y fetch.answers := mem_inquiries hlen
  have hlast : fetch.answers[fetch.rows.length] = .error e := by
    simp [Fetched.answers_of_error h]
  rw [hlast] at hmem
  exact ⟨_, hmem⟩

end Source

/-- A load asks for rows of its window only. -/
theorem Resampling.exists_of_mem_inquiries {σ : Type} {plan : Resampling} {src : Source σ}
    {start : Nat} {s : State (Source.Recorded σ)} {a : Request × Except Failure Bytes}
    (h : a ∈ src.inquiries (s.window.firstMissing start)
      (plan.fetchFor src.recorded start s).answers) :
    ∃ z, start ≤ z ∧ z < start + plan.vertical.tapCount ∧ a.1 = src.line z := by
  -- the rows that are missing begin where the window ends that was moved to `start`
  obtain ⟨i, hi, heq⟩ := Source.exists_of_mem_inquiries h
  have hlength := Nat.lt_of_lt_of_le hi (Source.length_answers_le ..)
  rw [← s.window.stop_moveTo, Band.stop, Band.start_moveTo] at heq
  exact ⟨_, by omega, by omega, heq⟩

namespace Sharpening.Seated

variable {α σ : Type} {plan : Sharpening α} {src : Source σ} (hseat : plan.Seated src.recorded)
  {s₀ : Source.Recorded σ} {s : Resampling.State (Source.Recorded σ)}
  (hs : plan.blur.Loads src.recorded s₀ s) {y : Nat}
include hseat hs

/-- Once the rows for a blurred row are there, the sharp row is one of them. -/
theorem exists_sharp (hy : y < plan.blur.vertical.outputSize) {u : Unit}
    (hok : (plan.blur.fetchFor src.recorded (plan.blur.vertical.window y).start s).result =
      .ok u) {t : Resampling.State (Source.Recorded σ)}
    (ht : t = plan.blur.loaded src.recorded (plan.blur.vertical.window y).start s) :
    ∃ sharp, t.window.keptRow? y = some sharp ∧ src.Answered s₀ t.below y sharp := by
  have htraced := hs.traced hseat.blur
  have hsize := Resampling.size_loaded_of_ok htraced.intact hok
  obtain ⟨hlo, hhi⟩ := hseat.centered y hy
  subst ht
  refine (htraced.loaded hseat.blur _).made.exists_keptRow? hseat.keepsSource hlo ?_
  rwa [Band.stop, hsize]

/-- What a sharpening stage asks its source for when it makes a row, and what becomes of it. -/
theorem answers_of_row {x width : Nat} (hy : y < plan.blur.size.height.toNat)
    (hx : x + width ≤ plan.blur.size.width.toNat) {step : Step _ Bytes}
    (hstep : step = plan.row src.recorded y x width s) :
    ∃ answers, step.state.below.record = answers ++ s.below.record ∧
      (∀ a ∈ answers, ∃ z < src.size.height.toNat,
        plan.blur.vertical.Covers y z ∧ a.1 = src.line z) ∧
      (∀ row, step.result = .ok row → ∃ sharp, step.state.window.keptRow? y = some sharp ∧
        src.Answered s₀ step.state.below y sharp) ∧
      ∀ e, step.result = .error e → ∃ z, (src.line z, .error e) ∈ answers := by
  have hstage : (Stage.sharpening plan).Seated src.recorded := hseat
  have htraced := hs.traced hseat.blur
  have hinside : (plan.blur.vertical.window y).start + plan.blur.vertical.tapCount ≤
      src.size.height.toNat := hstage.window_le hy
  have hlow := Nat.lt_of_lt_of_le hy plan.blur.height_le
  obtain ⟨hstate, hresult⟩ := hseat.row_eq htraced.intact hlow (hx.trans plan.blur.width_le)
    (by rw [← hseat.size_eq]; exact hx)
  subst hstep
  refine ⟨_, by rw [hstate]; exact plan.blur.record_loaded src _ s, fun a ha => ?_, ?_⟩
  · obtain ⟨z, hlo, hhi, heq⟩ := Resampling.exists_of_mem_inquiries (List.mem_reverse.mp ha)
    exact ⟨z, by omega, ⟨hlo, hhi⟩, heq⟩
  -- the row is made if the rows for it were fetched, and only then
  cases hr : (plan.blur.fetchFor src.recorded (plan.blur.vertical.window y).start s).result with
  | ok _ =>
    rw [hr] at hresult
    obtain ⟨image, hholds⟩ := (htraced.loaded hseat.blur _).intact.exists_holds
    refine ⟨fun _ _ => hseat.exists_sharp hs hlow hr hstate, fun e he => ?_⟩
    cases he.symm.trans (hresult image hholds)
  | error e' =>
    rw [hr] at hresult
    refine ⟨fun row hok => ?_, fun e he => ?_⟩
    · cases hok.symm.trans hresult
    · cases he.symm.trans hresult
      obtain ⟨z, hz⟩ := src.exists_mem_inquiries_of_error _ hr
      exact ⟨z, List.mem_reverse.mpr hz⟩

end Sharpening.Seated

namespace Chain

variable {α σ : Type} [Analytic α]

/-- The windows of a blur slide along an axis of any size, with any reach. So a sharpening stage,
in every state that loads lead to, whether these failed or not, asks for a row only if it is one
of the source and in the window of the row that it makes; if it makes this row then the sharp row
is in its window, as the source gave it; and if it does not then that is how the source
answered. -/
theorem blur_slides :
    (∀ (size : Nat) (radius : α) (colors : Nat) (alpha : Bool) (g : Gaussian α), 0 < size →
      0 < colors → Gaussian.ofSigma? radius = .ok g →
        ∃ t, TapTable.blur size radius colors alpha = .ok t ∧ t.Slides size g.reach) ∧
    ∀ (below : Chain α σ) (settings : SharpenSettings α) (plan : Sharpening α),
      (below.sharpened settings).result = .ok (below.sharpen plan) →
      ∀ (s₀ : Source.Recorded below.State) (s : Resampling.State (Source.Recorded below.State)),
        plan.blur.Loads below.source.recorded s₀ s →
        ∀ y x width, y < below.size.height.toNat → x + width ≤ below.size.width.toNat →
          ∀ step, step = plan.row below.source.recorded y x width s →
            ∃ answers, step.state.below.record = answers ++ s.below.record ∧
              (∀ a ∈ answers, ∃ z < below.size.height.toNat,
                plan.blur.vertical.Covers y z ∧ a.1 = below.source.line z) ∧
              (∀ row, step.result = .ok row → ∃ sharp,
                step.state.window.keptRow? y = some sharp ∧
                  below.source.Answered s₀ step.state.below y sharp) ∧
              ∀ e, step.result = .error e → ∃ z, (below.source.line z, .error e) ∈ answers := by
  constructor
  · intro size radius colors alpha g hsize hcolors hg
    obtain ⟨t, ht⟩ := TapTable.exists_blur alpha hg hsize hcolors
    exact ⟨t, ht, TapTable.slides_blur hg ht⟩
  · intro below settings plan hplan s₀ s hs y x width hy hx step hstep
    have htakes : below.Takes (.sharpening plan) := .sharpening hplan
    have hseat : (Stage.sharpening plan).Seated below.source.recorded :=
      htakes.seated.congr rfl rfl
    obtain ⟨hsize, -⟩ := shape_of_sharpened hplan
    rw [← hsize] at hy hx
    exact Sharpening.Seated.answers_of_row hseat hs hy hx hstep

/-- The last of four rows, made after the first: its window is that of the row before it. -/
theorem blur_slides_grey_column :
    let img : Image := ⟨⟨1, 4⟩, .grey8, #[10, 200, 90, 30], by decide, by decide⟩
    let below : Chain Float Unit := .base img.source
    let first : Request × Bytes := (⟨⟨0, 0, 1, 1⟩, 1⟩, #[0])
    (∃ t, TapTable.blur 4 (0.3 : Float) 1 false = .ok t ∧ t.tapCount = 3 ∧
      (t.window 2).start = 1 ∧ (t.window 3).start = 1) ∧
    ∃ plan, (below.sharpened ⟨50, 0.3, 0⟩).result = .ok (below.sharpen plan) ∧
      let s := (plan.source below.source.recorded).after (.initial ⟨(), []⟩) [first]
      (plan.row below.source.recorded 3 0 1 s).state.window.keptRow? 3 = some (img.row 3) := by
  intro img below first
  obtain ⟨htables, hstages⟩ := blur_slides (α := Float) (σ := Unit)
  constructor
  · have hg : Gaussian.ofSigma? (0.3 : Float) = .ok ⟨0.3, _⟩ := if_neg (by decide +kernel)
    obtain ⟨t, ht, hslides⟩ := htables 4 0.3 1 false _ (by decide) (by decide) hg
    have hreach (scale : Float) : Gaussian.reach ⟨0.3, scale⟩ = 1 :=
      (by decide +kernel : (Scalar.ceil ((0.3 : Float) * 3.0)).toNat = 1)
    rw [hreach] at hslides
    obtain ⟨htaps, hstart⟩ := hslides.narrow (by decide)
    have htwo := hstart 2 (by decide)
    have hthree := hstart 3 (by decide)
    rw [htaps] at htwo hthree
    exact ⟨t, ht, htaps, by omega, by omega⟩
  · have hcheck : (⟨50, 0.3, 0⟩ : SharpenSettings Float).check = .ok () := by decide +kernel
    have hsharpens : (⟨50, 0.3, 0⟩ : SharpenSettings Float).sharpens = true := by decide +kernel
    have hkernel : RowKernel.ofFormat? below.format = some ⟨1, .eight, .none⟩ := rfl
    obtain ⟨plan, hplan⟩ := exists_sharpened hkernel (by decide) (by decide) hcheck hsharpens
    obtain ⟨hsize, -⟩ := shape_of_sharpened hplan
    have himg : below.source.Serves (fun _ => True) img.row fun _ => False := img.serves
    have htakes : below.Takes (.sharpening plan) := .sharpening hplan
    have hseat : (Stage.sharpening plan).Seated below.source.recorded :=
      htakes.seated.congr rfl rfl
    have hgives : below.source.recorded.Gives (fun _ => True) img.row fun _ => False :=
      fun y hy s _ => himg.gives y hy s.inner trivial
    have hst : plan.Stands below.source.recorded (fun _ => True) img.row fun _ => False :=
      Sharpening.Seated.stands hseat hgives
    have hco := hst.serves.keeps_after
      (Resampling.coherent_initial (s := (⟨(), []⟩ : Source.Recorded Unit)) trivial) ⟨[first], rfl⟩
    have hloads : plan.blur.Loads _ _ _ := hseat.loads_after ⟨(), []⟩ [first]
    have hlow : 3 < plan.blur.size.height.toNat := by
      rw [hsize]
      decide
    have hright : 0 + 1 ≤ plan.blur.size.width.toNat := by
      rw [hsize]
      decide
    have hrow := hst.row_ensures (Nat.lt_of_lt_of_le hlow plan.blur.height_le)
      (hright.trans plan.blur.width_le) (by rw [← hst.size_eq]; exact hright)
    obtain ⟨answers, -, -, hmade, -⟩ :=
      hstages below _ plan hplan _ _ hloads 3 0 1 (by decide) (by decide) _ rfl
    refine ⟨plan, hplan, ?_⟩
    intro s
    cases hr : (plan.row below.source.recorded 3 0 1 s).result with
    | error e => exact (hrow.error hco hr).1.elim
    | ok row =>
      obtain ⟨sharp, hkept, hanswered⟩ := hmade row hr
      rw [← hanswered.eq_row img.row (himg.steady trivial) (by decide)]
      exact hkept

end Chain

end Resampler

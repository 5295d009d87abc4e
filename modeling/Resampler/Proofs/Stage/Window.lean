import Resampler.Proofs.Convolution
import Resampler.Proofs.Source.Serving

/-!
The window of a resampling stage.

What a window holds depends on every request that the stage has had and on every
failure of the source below. The invariant `Holds` says all that a later request
needs to know of this history: each line of the window is the one that belongs to
its row of the source, and there are never more lines than an output row
takes. It survives the three changes that a window goes through, being moved,
being extended by a row, and being left half filled by a failure; `load_ensures`
puts these together, and `row_ensures` reads an output row off the completed window.
-/

namespace Resampler.Resampling

variable {σ β : Type} {plan : Resampling} {rows : Nat → Bytes} {below : Source σ} {I : σ → Prop}
  {faults : Failure → Prop}

/-- The line that a window keeps for row `s` of the source. -/
def lineOf (plan : Resampling) (rows : Nat → Bytes) (s : Nat) : Line :=
  ⟨plan.acrossRow rows s, if plan.keepsSource then some (rows s) else none⟩

/-- Every line of the window is that of its row, and the window is not too long. -/
structure Holds (plan : Resampling) (rows : Nat → Bytes) (w : Band) : Prop where
  line : ∀ i < w.lines.size, w.lines[i]? = some (plan.lineOf rows (w.start + i))
  size_row : ∀ i < w.lines.size,
    (rows (w.start + i)).size = plan.format.rowBytes plan.sourceSize.width
  size_le : w.lines.size ≤ plan.vertical.tapCount

theorem holds_empty : plan.Holds rows Band.empty where
  line i hi := by simp [Band.empty] at hi
  size_row i hi := by simp [Band.empty] at hi
  size_le := Nat.zero_le _

/-- Moving a window keeps lines only where they stay in place. -/
theorem Holds.moveTo {w : Band} (h : plan.Holds rows w) (start : Nat) :
    plan.Holds rows (w.moveTo start) := by
  unfold Band.moveTo
  split
  case isTrue hkeep =>
    have hplace (i : Nat) : w.start + (start - w.start + i) = start + i := by omega
    refine ⟨fun i hi => ?_, fun i hi => ?_, ?_⟩
    · simp only [Array.size_extract] at hi
      rw [Array.getElem?_extract, if_pos (by omega), h.line _ (by omega), hplace]
    · simp only [Array.size_extract] at hi
      have hsize := h.size_row (start - w.start + i) (by omega)
      rwa [hplace] at hsize
    · have := h.size_le
      simp only [Array.size_extract]
      omega
  case isFalse =>
    exact ⟨fun i hi => by simp at hi, fun i hi => by simp at hi, Nat.zero_le _⟩

theorem Holds.push {w : Band} (h : plan.Holds rows w)
    (hrow : (rows w.stop).size = plan.format.rowBytes plan.sourceSize.width)
    (hroom : w.lines.size < plan.vertical.tapCount) :
    plan.Holds rows (w.push (plan.lineOf rows w.stop)) where
  line i hi := by
    simp only [Band.push, Array.size_push] at hi ⊢
    rw [Array.getElem?_push]
    split
    case isTrue hlast =>
      subst hlast
      rfl
    case isFalse hlast =>
      exact h.line i (by omega)
  size_row i hi := by
    simp only [Band.push, Array.size_push] at hi ⊢
    rcases Nat.lt_succ_iff_lt_or_eq.mp hi with hlt | rfl
    · exact h.size_row i hlt
    · exact hrow
  size_le := by
    simp only [Band.push, Array.size_push]
    omega

/-- A window that keeps its rows as they came has those of the source. -/
theorem Holds.keptRow?_eq {w : Band} (h : plan.Holds rows w) (hkeeps : plan.keepsSource = true)
    {y : Nat} (hlo : w.start ≤ y) (hhi : y < w.stop) : w.keptRow? y = some (rows y) := by
  unfold Band.stop at hhi
  have hline := h.line (y - w.start) (by omega)
  rw [Nat.add_sub_cancel' hlo] at hline
  rw [Band.keptRow?, if_pos hlo, hline, Option.bind_some, lineOf, if_pos hkeeps]

/-- A complete window blends into the pixels of its output row. -/
theorem Holds.blendRow?_eq {w : Band} (h : plan.Holds rows w) (hfits : plan.Fits) {y x width : Nat}
    (hstart : w.start = (plan.vertical.window y).start)
    (hsize : w.lines.size = plan.vertical.tapCount) (hy : y < plan.vertical.outputSize)
    (hx : x + width ≤ plan.horizontal.outputSize) :
    plan.kernel.blendRow? w.rows (plan.vertical.window y).weights x width =
      some (plan.kernel.pixels (plan.convolved rows y) x width) := by
  refine hfits.blendRow?_eq ?_ (fun r hr => ?_) hy hx
  · rw [Band.rows, Array.size_map, hsize]
  · rw [Band.rows, Array.getElem?_map, h.line r (by omega), hstart]
    rfl

/-- The states in which a stage can be: its source in `I`, its window holding rows of it. -/
structure Coherent (plan : Resampling) (I : σ → Prop) (rows : Nat → Bytes) (s : State σ) :
    Prop where
  below : I s.below
  window : plan.Holds rows s.window

theorem coherent_initial {s : σ} (hs : I s) : plan.Coherent I rows (.initial s) :=
  ⟨hs, holds_empty⟩

theorem ensures_onSource {m : Pull σ β} {pre : σ → Prop} {post : β → σ → Prop}
    {bad : Failure → σ → Prop} (h : m.Ensures pre post bad) (w : Band) (n : Nat) :
    (onSource m).Ensures (fun s => pre s.below ∧ s.window = w ∧ s.fetched = n)
      (fun b s => post b s.below ∧ s.window = w ∧ s.fetched = n)
      fun e s => bad e s.below ∧ s.window = w ∧ s.fetched = n := by
  rintro s ⟨hs, hw, hn⟩
  simp only [onSource]
  cases hr : (m s.below).result with
  | ok b => exact ⟨h.ok hs hr, hw, hn⟩
  | error e => exact ⟨h.error hs hr, hw, hn⟩

/-- What a stage can rely on in the source that it is put on. -/
structure Stands (plan : Resampling) (below : Source σ) (I : σ → Prop) (rows : Nat → Bytes)
    (faults : Failure → Prop) : Prop where
  fits : plan.Fits
  size_eq : below.size = plan.sourceSize
  format_eq : below.format = plan.format
  gives : below.Gives I rows faults

namespace Stands

variable (hst : plan.Stands below I rows faults)
include hst

/-- Fetching the next row extends the window by its line; a failure leaves the window alone. -/
theorem fetchLine_ensures {w : Band} {n : Nat} (hy : w.stop < plan.sourceSize.height.toNat) :
    (plan.fetchLine below w.stop).Ensures
      (fun s => I s.below ∧ s.window = w ∧ s.fetched = n)
      (fun _ s => I s.below ∧ s.window = w.push (plan.lineOf rows w.stop) ∧ s.fetched = n ∧
        (rows w.stop).size = plan.format.rowBytes plan.sourceSize.width)
      fun e s => faults e ∧ I s.below ∧ s.window = w ∧ s.fetched = n := by
  have hfetch := ensures_onSource (hst.gives.sized (by rw [hst.size_eq]; exact hy)) w n
  rw [hst.size_eq, hst.format_eq] at hfetch
  refine Pull.Ensures.bind _ (hfetch.weaken (fun _ h => h) (fun _ _ h => h) fun e s h => ?_)
    fun raw => ?_
  · exact ⟨h.1.1, h.1.2, h.2⟩
  refine Pull.Ensures.assuming (raw = rows w.stop ∧
    raw.size = plan.format.rowBytes plan.sourceSize.width) ?_ fun s h => ⟨h.1.1, h.1.2.1⟩
  rintro ⟨rfl, hsize⟩
  refine Pull.Ensures.bind (fun samples s => samples = plan.acrossRow rows w.stop ∧
      I s.below ∧ s.window = w ∧ s.fetched = n)
    (Pull.ensures_lookup (hst.fits.convolveRow?_eq hsize) fun s h => ?_) fun samples => ?_
  · exact ⟨rfl, h.1.2.2, h.2⟩
  refine Pull.ensures_update fun s h => ?_
  obtain ⟨rfl, hI, rfl, hn⟩ := h
  exact ⟨hI, rfl, hn, hsize⟩

/-- Fetching the rows that are missing extends the window by them; a failure leaves it where it
got to. -/
theorem fetchLines_ensures (start fetched : Nat) {y n : Nat}
    (hheight : y + n ≤ plan.sourceSize.height.toNat) :
    (plan.fetchLines below y n).Ensures
      (fun s => plan.Coherent I rows s ∧ s.window.start = start ∧ s.window.stop = y ∧
        s.window.lines.size + n ≤ plan.vertical.tapCount ∧ s.fetched = fetched)
      (fun _ s => plan.Coherent I rows s ∧ s.window.start = start ∧ s.window.stop = y + n ∧
        s.fetched = fetched)
      fun e s => faults e ∧ plan.Coherent I rows s ∧ s.fetched = fetched := by
  -- on the rows that are missing; the window ends where they begin
  induction n generalizing y with
  | zero => exact Pull.ensures_pure fun s h => ⟨h.1, h.2.1, h.2.2.1, h.2.2.2.2⟩
  | succ n ih =>
    refine Pull.Ensures.bind (fun _ s => plan.Coherent I rows s ∧
      s.window.start = start ∧ s.window.stop = y + 1 ∧
        s.window.lines.size + n ≤ plan.vertical.tapCount ∧ s.fetched = fetched) ?_ fun _ => ?_
    · -- the window before the fetch is fixed here, so that the contract can speak of it
      refine Pull.Ensures.of_state fun s hs => ?_
      obtain ⟨hco, hstart, rfl, hroom, hn⟩ := hs
      refine (hst.fetchLine_ensures (w := s.window) (n := fetched) (by omega)).weaken
        ?_ (fun _ s' h => ?_) fun e s' h => ?_
      · rintro _ rfl
        exact ⟨hco.below, rfl, hn⟩
      · obtain ⟨hI, hw, hn', hsize⟩ := h
        refine ⟨⟨hI, by rw [hw]; exact hco.window.push hsize (by omega)⟩, ?_, ?_, ?_, hn'⟩
        · rw [hw]
          exact hstart
        · rw [hw]
          simp only [Band.push, Band.stop, Array.size_push]
          omega
        · rw [hw]
          simp only [Band.push, Array.size_push]
          omega
      · obtain ⟨hfault, hI, hw, hn'⟩ := h
        exact ⟨hfault, ⟨hI, hw ▸ hco.window⟩, hn'⟩
    · refine (ih (y := y + 1) (by omega)).weaken (fun _ h => h) (fun _ s h => ?_) fun _ _ h => h
      rwa [show y + 1 + n = y + (n + 1) by omega] at h

/-- A load completes the window at its new place, or fails and leaves one that can be used
again. -/
theorem load_ensures {start : Nat}
    (hheight : start + plan.vertical.tapCount ≤ plan.sourceSize.height.toNat) :
    (plan.load below start).Ensures (plan.Coherent I rows)
      (fun _ s => plan.Coherent I rows s ∧ s.window.start = start ∧
        s.window.lines.size = plan.vertical.tapCount)
      fun e s => faults e ∧ plan.Coherent I rows s := by
  refine Pull.Ensures.bind (fun _ s => plan.Coherent I rows s ∧ s.window.start = start)
    (Pull.ensures_update fun s h => ⟨⟨h.below, h.window.moveTo start⟩, rfl⟩) fun _ => ?_
  refine Pull.Ensures.bind (fun reused s => plan.Coherent I rows s ∧
      s.window.start = start ∧ s.window.lines.size = reused)
    (Pull.ensures_read fun s h => ⟨h.1, h.2, rfl⟩) fun reused => ?_
  -- what is reused never exceeds the window, so that the rows to fetch can be counted
  refine Pull.Ensures.assuming (reused ≤ plan.vertical.tapCount) ?_ fun s h =>
    h.2.2 ▸ h.1.window.size_le
  intro hreused
  refine Pull.Ensures.bind (fun _ s => plan.Coherent I rows s ∧
      s.window.start = start ∧ s.window.lines.size = plan.vertical.tapCount) ?_ fun _ => ?_
  · refine Pull.Ensures.of_state fun s hs => ?_
    obtain ⟨hco, hstart, hsize⟩ := hs
    refine (hst.fetchLines_ensures start s.fetched (y := start + reused)
      (n := plan.vertical.tapCount - reused) (by omega)).weaken
      ?_ (fun _ s' h => ?_) fun e s' h => ?_
    · rintro _ rfl
      refine ⟨hco, hstart, ?_, by omega, rfl⟩
      rw [Band.stop, hstart, hsize]
    · refine ⟨h.1, h.2.1, ?_⟩
      have hstop := h.2.2.1
      rw [Band.stop, h.2.1] at hstop
      omega
    · exact ⟨h.1, h.2.1⟩
  · refine Pull.Ensures.bind (fun _ s => plan.Coherent I rows s ∧
        s.window.start = start ∧ s.window.lines.size = plan.vertical.tapCount)
      (Pull.ensures_update fun s h => ⟨⟨h.1.below, h.1.window⟩, h.2⟩) fun _ => ?_
    split
    · exact Pull.ensures_report fun s h => h
    · exact Pull.ensures_pure fun s h => h

/-- An output row is that of the resampled image, and the window behind it is complete. -/
theorem row_ensures {y x width : Nat} (hy : y < plan.vertical.outputSize)
    (hx : x + width ≤ plan.horizontal.outputSize) :
    (plan.row below y x width).Ensures (plan.Coherent I rows)
      (fun row s => row = plan.kernel.pixels (plan.convolved rows y) x width ∧
        plan.Coherent I rows s ∧ s.window.start = (plan.vertical.window y).start ∧
        s.window.lines.size = plan.vertical.tapCount)
      fun e s => faults e ∧ plan.Coherent I rows s := by
  have hinside := hst.fits.vertical.inside y hy
  rw [hst.fits.height_eq] at hinside
  refine Pull.Ensures.bind (fun taps s => taps = plan.vertical.window y ∧
      plan.Coherent I rows s)
    (Pull.ensures_lookup (TapTable.taps?_eq_window hy) fun s h => ⟨rfl, h⟩) fun taps => ?_
  refine Pull.Ensures.assuming (taps = plan.vertical.window y) ?_ fun s h => h.1
  rintro rfl
  refine Pull.Ensures.bind _ ((hst.load_ensures hinside).weaken (fun s h => h.2) (fun _ _ h => h)
    fun _ _ h => h) fun _ => ?_
  refine Pull.Ensures.bind (fun lines s => lines = s.window.rows ∧
      plan.Coherent I rows s ∧ s.window.start = (plan.vertical.window y).start ∧
        s.window.lines.size = plan.vertical.tapCount)
    (Pull.ensures_read fun s h => ⟨rfl, h⟩) fun lines => ?_
  refine Pull.Ensures.of_state fun s hs => ?_
  obtain ⟨rfl, hco, hstart, hsize⟩ := hs
  refine Pull.ensures_lookup (hco.window.blendRow?_eq hst.fits hstart hsize hy hx) ?_
  rintro _ rfl
  exact ⟨rfl, hco, hstart, hsize⟩

end Stands

end Resampler.Resampling

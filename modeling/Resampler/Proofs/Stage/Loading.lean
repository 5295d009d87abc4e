import Resampler.Proofs.Source.Fetching
import Resampler.Proofs.Stage.Window

/-!
What a load does over any source.

The contract of a load says what a caller may rely on when the source gives the rows of
one image. Here nothing is asked of the source but its size and format. It may give
other rows each time and may fail where it likes, and still a load is known exactly: it
fetches the rows between the end of the moved window and the end of the window it is
to become, and keeps what came before a failure. Where that fails the row fails with
the same failure, and where it does not there is nothing else that can fail.
-/

namespace Resampler

namespace Band

/-- The window with more rows at its end. -/
def extend (w : Band) (lines : List Line) : Band := { w with lines := w.lines ++ lines.toArray }

@[simp] theorem start_moveTo (w : Band) (start : Nat) : (w.moveTo start).start = start := rfl

@[simp] theorem start_extend (w : Band) (lines : List Line) :
    (w.extend lines).start = w.start := rfl

@[simp] theorem size_extend (w : Band) (lines : List Line) :
    (w.extend lines).lines.size = w.lines.size + lines.length := by
  simp [extend]

@[simp] theorem stop_extend (w : Band) (lines : List Line) :
    (w.extend lines).stop = w.stop + lines.length := by
  simp only [stop, start_extend, size_extend, Nat.add_assoc]

@[simp] theorem extend_nil (w : Band) : w.extend [] = w := by simp [extend]

theorem extend_push (w : Band) (line : Line) (lines : List Line) :
    (w.push line).extend lines = w.extend (line :: lines) := by
  simp [extend, push]

/-- A window that moves forward never ends before it did. -/
theorem stop_le_stop_moveTo (w : Band) {start : Nat} (h : w.start ≤ start) :
    w.stop ≤ (w.moveTo start).stop := by
  unfold stop moveTo
  split
  case isTrue hkeep =>
    simp only [stop] at hkeep
    simp only [Array.size_extract]
    omega
  case isFalse hdrop =>
    simp only [stop] at hdrop
    simp only [List.size_toArray, List.length_nil]
    omega

/-- The rows of a window that was moved are rows that it held. -/
theorem stop_moveTo_of_mem (w : Band) {start y : Nat} (hlo : start ≤ y)
    (hhi : y < (w.moveTo start).stop) : w.start ≤ y ∧ y < w.stop := by
  unfold stop moveTo at hhi
  split at hhi
  case isTrue hkeep =>
    simp only [stop] at hkeep
    simp only [Array.size_extract] at hhi
    simp only [stop]
    omega
  case isFalse =>
    simp only [List.size_toArray, List.length_nil] at hhi
    omega

end Band

namespace Resampling

variable {σ : Type} {plan : Resampling} {below : Source σ}

/-- The line that a window keeps for a row with the given bytes. -/
def lineOfRow (plan : Resampling) (raw : Bytes) : Line := plan.lineOf (fun _ => raw) 0

theorem lineOf_eq_lineOfRow (rows : Nat → Bytes) (s : Nat) :
    plan.lineOf rows s = plan.lineOfRow (rows s) := rfl

/-- Every line of the window was made of bytes that are `given` for its row. -/
def MadeOf (plan : Resampling) (given : Nat → Bytes → Prop) (w : Band) : Prop :=
  ∀ i < w.lines.size, ∃ raw, given (w.start + i) raw ∧ w.lines[i]? = some (plan.lineOfRow raw)

section MadeOf

variable {given given' : Nat → Bytes → Prop} {w : Band}

theorem madeOf_empty : plan.MadeOf given Band.empty := fun i hi => absurd hi (Nat.not_lt_zero i)

theorem MadeOf.moveTo (h : plan.MadeOf given w) (start : Nat) :
    plan.MadeOf given (w.moveTo start) := by
  intro i hi
  unfold Band.moveTo at hi ⊢
  simp only at hi ⊢
  split at hi
  case isTrue hkeep =>
    rw [Array.size_extract] at hi
    obtain ⟨raw, hgiven, hline⟩ := h (start - w.start + i) (by omega)
    rw [show w.start + (start - w.start + i) = start + i by omega] at hgiven
    refine ⟨raw, hgiven, ?_⟩
    rw [if_pos hkeep, Array.getElem?_extract, if_pos (by omega), hline]
  case isFalse => exact absurd hi (Nat.not_lt_zero i)

/-- Lines are added, and those that were there before are still good. -/
theorem MadeOf.extend (h : plan.MadeOf given w) {raws : List Bytes}
    (hold : ∀ y raw, y < w.stop → given y raw → given' y raw)
    (hnew : ∀ i (hi : i < raws.length), given' (w.stop + i) raws[i]) :
    plan.MadeOf given' (w.extend (raws.map plan.lineOfRow)) := by
  intro i hi
  rw [Band.size_extend, List.length_map] at hi
  unfold Band.stop at hold hnew
  by_cases hi' : i < w.lines.size
  · obtain ⟨raw, hgiven, hline⟩ := h i hi'
    refine ⟨raw, hold (w.start + i) raw (by omega) hgiven, ?_⟩
    simp only [Band.extend]
    rw [Array.getElem?_append_left hi', hline]
  · have hgiven := hnew (i - w.lines.size) (by omega)
    rw [show w.start + w.lines.size + (i - w.lines.size) = w.start + i by omega] at hgiven
    refine ⟨_, hgiven, ?_⟩
    simp only [Band.extend]
    rw [Array.getElem?_append_right (by omega), List.getElem?_toArray, List.getElem?_map,
      List.getElem?_eq_getElem (by omega), Option.map_some]

/-- Where rows are kept as they came, those of a window are what it was made of. -/
theorem MadeOf.exists_keptRow? (h : plan.MadeOf given w) (hkeeps : plan.keepsSource = true)
    {y : Nat} (hlo : w.start ≤ y) (hhi : y < w.stop) :
    ∃ raw, w.keptRow? y = some raw ∧ given y raw := by
  unfold Band.stop at hhi
  obtain ⟨raw, hgiven, hline⟩ := h (y - w.start) (by omega)
  rw [Nat.add_sub_cancel' hlo] at hgiven
  refine ⟨raw, ?_, hgiven⟩
  rw [Band.keptRow?, if_pos hlo, hline, Option.bind_some, lineOfRow, lineOf, if_pos hkeeps]

end MadeOf

/-- Every line of the window was made of a whole row, and the window is not too long. -/
structure Intact (plan : Resampling) (w : Band) : Prop where
  made : ∀ line ∈ w.lines, ∃ raw, raw.size = plan.format.rowBytes plan.sourceSize.width ∧
    line = plan.lineOfRow raw
  size_le : w.lines.size ≤ plan.vertical.tapCount

theorem intact_empty : plan.Intact Band.empty where
  made line h := by simp [Band.empty] at h
  size_le := Nat.zero_le _

namespace Intact

variable {w : Band} (h : plan.Intact w)
include h

theorem moveTo (start : Nat) : plan.Intact (w.moveTo start) := by
  unfold Band.moveTo
  split
  · refine ⟨fun line hline => ?_, ?_⟩
    · obtain ⟨i, hi, rfl⟩ := Array.getElem_of_mem hline
      rw [Array.getElem_extract]
      exact h.made _ (Array.getElem_mem _)
    · have := h.size_le
      simp only [Array.size_extract]
      omega
  · exact ⟨fun line hline => by simp at hline, Nat.zero_le _⟩

theorem extend {raws : List Bytes}
    (hraws : ∀ raw ∈ raws, raw.size = plan.format.rowBytes plan.sourceSize.width)
    (hroom : w.lines.size + raws.length ≤ plan.vertical.tapCount) :
    plan.Intact (w.extend (raws.map plan.lineOfRow)) where
  made line hline := by
    rcases Array.mem_append.mp hline with hold | hnew
    · exact h.made line hold
    · obtain ⟨raw, hraw, rfl⟩ := List.mem_map.mp (List.mem_toArray.mp hnew)
      exact ⟨raw, hraws raw hraw, rfl⟩
  size_le := by rwa [Band.size_extend, List.length_map]

/-- An intact window holds rows of some image. -/
theorem exists_holds : ∃ image, plan.Holds image w := by
  have hline (i : Nat) : ∃ raw, i < w.lines.size →
      raw.size = plan.format.rowBytes plan.sourceSize.width ∧
        w.lines[i]? = some (plan.lineOfRow raw) := by
    by_cases hi : i < w.lines.size
    · obtain ⟨raw, hsize, hraw⟩ := h.made w.lines[i] (Array.getElem_mem hi)
      exact ⟨raw, fun _ => ⟨hsize, by rw [Array.getElem?_eq_getElem hi, hraw]⟩⟩
    · exact ⟨#[], fun hlt => (hi hlt).elim⟩
  choose raws hraws using hline
  refine ⟨fun s => raws (s - w.start), fun i hi => ?_, fun i hi => ?_, h.size_le⟩
  · rw [lineOf_eq_lineOfRow, Nat.add_sub_cancel_left]
    exact (hraws i hi).2
  · rw [Nat.add_sub_cancel_left]
    exact (hraws i hi).1

end Intact

/-- The rows that are fetched when the window is moved to `start` and completed there. -/
def fetchFor (plan : Resampling) (below : Source σ) (start : Nat) (s : State σ) :
    Source.Fetched σ :=
  let w := s.window.moveTo start
  below.fetchRows w.stop (plan.vertical.tapCount - w.lines.size) s.below

/-- The state after a load. A load that fails is not counted, but its rows are kept. -/
def loaded (plan : Resampling) (below : Source σ) (start : Nat) (s : State σ) : State σ :=
  let w := s.window.moveTo start
  let fetch := plan.fetchFor below start s
  { below := fetch.state
    window := w.extend (fetch.rows.map plan.lineOfRow)
    fetched := match fetch.result with
      | .ok _ => s.fetched + (plan.vertical.tapCount - w.lines.size)
      | .error _ => s.fetched }

@[simp] theorem start_loaded (start : Nat) (s : State σ) :
    (plan.loaded below start s).window.start = start := rfl

theorem stop_loaded (start : Nat) (s : State σ) :
    (plan.loaded below start s).window.stop =
      (s.window.moveTo start).stop + (plan.fetchFor below start s).rows.length := by
  simp only [loaded, Band.stop_extend, List.length_map]

/-- The tables of a stage were made for the size and format of its source. -/
structure Seated (plan : Resampling) (below : Source σ) : Prop where
  fits : plan.Fits
  size_eq : below.size = plan.sourceSize
  format_eq : below.format = plan.format

theorem Stands.seated {I : σ → Prop} {rows : Nat → Bytes} {faults : Failure → Prop}
    (hst : plan.Stands below I rows faults) : plan.Seated below :=
  ⟨hst.fits, hst.size_eq, hst.format_eq⟩

theorem Seated.stands {I : σ → Prop} {rows : Nat → Bytes} {faults : Failure → Prop}
    (hseat : plan.Seated below) (hgives : below.Gives I rows faults) :
    plan.Stands below I rows faults :=
  ⟨hseat.fits, hseat.size_eq, hseat.format_eq, hgives⟩

theorem Seated.congr {τ : Type} {below' : Source τ} (hseat : plan.Seated below)
    (hsize : below'.size = below.size) (hformat : below'.format = below.format) :
    plan.Seated below' :=
  ⟨hseat.fits, hsize.trans hseat.size_eq, hformat.trans hseat.format_eq⟩

theorem size_loaded_of_ok {start : Nat} {s : State σ} {u : Unit} (hs : plan.Intact s.window)
    (hok : (plan.fetchFor below start s).result = .ok u) :
    (plan.loaded below start s).window.lines.size = plan.vertical.tapCount := by
  have hsize := (hs.moveTo start).size_le
  simp only [loaded, Band.size_extend, List.length_map]
  rw [fetchFor, Source.length_fetchRows_of_ok hok]
  omega

theorem fetchLine_of_error (plan : Resampling) {y : Nat} {s : State σ} {e : Failure}
    (h : (below.fetchRow y s.below).result = .error e) :
    (plan.fetchLine below y s).result = .error e ∧
      (plan.fetchLine below y s).state = { s with below := (below.fetchRow y s.below).state } := by
  have hfetch : (onSource (below.fetchRow y) s).result = .error e := h
  rw [fetchLine, Pull.bind_of_error hfetch]
  exact ⟨rfl, rfl⟩

/-- Where a load fails, it fails with a row of the window that it was to complete. -/
theorem exists_of_fetchFor_error {start : Nat} {s : State σ} {e : Failure}
    (hs : plan.Intact s.window) (h : (plan.fetchFor below start s).result = .error e) :
    ∃ z s', start ≤ z ∧ z < start + plan.vertical.tapCount ∧
      (below.fetchRow z s').result = .error e ∧
        (plan.fetchFor below start s).state = (below.fetchRow z s').state := by
  have hsize := (hs.moveTo start).size_le
  obtain ⟨z, s', hlo, hhi, hfail, hstate⟩ := Source.exists_of_fetchRows_error h
  simp only [Band.stop, Band.start_moveTo] at hlo hhi
  exact ⟨z, s', by omega, by omega, hfail, hstate⟩

namespace Seated

variable (hseat : plan.Seated below)
include hseat

theorem fetchLine_of_ok {y : Nat} {s : State σ} {raw : Bytes}
    (h : (below.fetchRow y s.below).result = .ok raw) :
    (plan.fetchLine below y s).result = .ok () ∧
      (plan.fetchLine below y s).state =
        ⟨(below.fetchRow y s.below).state, s.window.push (plan.lineOfRow raw), s.fetched⟩ := by
  have hfetch : (onSource (below.fetchRow y) s).result = .ok raw := h
  have hsize := Source.size_of_fetchRow h
  rw [hseat.size_eq, hseat.format_eq] at hsize
  have hsamples := @Fits.convolveRow?_eq plan (fun _ => raw) hseat.fits 0 hsize
  rw [fetchLine, Pull.bind_of_ok hfetch, hsamples]
  exact ⟨rfl, rfl⟩

/-- The lines that are fetched are those of the rows that the source gives, and they end where
it fails. -/
theorem fetchLines_eq (y n : Nat) (s : State σ) :
    (plan.fetchLines below y n s).result = (below.fetchRows y n s.below).result ∧
      (plan.fetchLines below y n s).state = ⟨(below.fetchRows y n s.below).state,
        s.window.extend ((below.fetchRows y n s.below).rows.map plan.lineOfRow), s.fetched⟩ := by
  induction n generalizing y s with
  | zero =>
    simp only [fetchLines, Source.fetchRows, List.map_nil, Band.extend_nil]
    exact ⟨rfl, rfl⟩
  | succ n ih =>
    cases hr : (below.fetchRow y s.below).result with
    | error e =>
      obtain ⟨hresult, hstate⟩ := fetchLine_of_error plan hr
      rw [fetchLines, Pull.bind_of_error hresult, Source.fetchRows_of_error hr]
      rw [List.map_nil, Band.extend_nil]
      exact ⟨rfl, hstate⟩
    | ok raw =>
      obtain ⟨hresult, hstate⟩ := hseat.fetchLine_of_ok hr
      rw [fetchLines, Pull.bind_of_ok hresult, Source.fetchRows_of_ok hr, hstate]
      simp only [List.map_cons, ← Band.extend_push]
      exact ih (y + 1) _

/-- A load fetches what is missing and keeps what it got. -/
theorem load_eq (start : Nat) (s : State σ) :
    (plan.load below start s).result = (plan.fetchFor below start s).result ∧
      (plan.load below start s).state = plan.loaded below start s := by
  obtain ⟨hresult, hstate⟩ := hseat.fetchLines_eq (s.window.moveTo start).stop
    (plan.vertical.tapCount - (s.window.moveTo start).lines.size)
    { s with window := s.window.moveTo start }
  rw [load, Pull.update_bind, Pull.read_bind]
  simp only [loaded, fetchFor]
  simp only [Band.stop, Band.start_moveTo] at hresult hstate ⊢
  generalize below.fetchRows _ _ s.below = fetch at hresult hstate ⊢
  cases hr : fetch.result with
  | error e =>
    rw [hr] at hresult
    rw [Pull.bind_of_error hresult]
    exact ⟨rfl, hstate⟩
  | ok _ =>
    rw [hr] at hresult
    rw [Pull.bind_of_ok hresult, Pull.update_bind, hstate]
    -- the report of a load is no action on the state
    split
    · exact ⟨rfl, rfl⟩
    · exact ⟨rfl, rfl⟩

theorem intact_loaded (start : Nat) {s : State σ} (hs : plan.Intact s.window) :
    plan.Intact (plan.loaded below start s).window := by
  have hsize := (hs.moveTo start).size_le
  have hlength := below.length_fetchRows_le (s.window.moveTo start).stop
    (plan.vertical.tapCount - (s.window.moveTo start).lines.size) s.below
  refine (hs.moveTo start).extend (fun raw hraw => ?_) ?_
  · rw [Source.size_of_mem_fetchRows hraw, hseat.size_eq, hseat.format_eq]
  · simp only [fetchFor]
    omega

/-- A row fails where the rows for it cannot be fetched, with the same failure. Where they can, it
is made of the rows that the window then holds. The state is that of the load. -/
theorem row_eq {y x width : Nat} {s : State σ} (hs : plan.Intact s.window)
    (hy : y < plan.vertical.outputSize) (hx : x + width ≤ plan.horizontal.outputSize) :
    (plan.row below y x width s).state = plan.loaded below (plan.vertical.window y).start s ∧
      match (plan.fetchFor below (plan.vertical.window y).start s).result with
      | .error e => (plan.row below y x width s).result = .error e
      | .ok _ => ∀ image,
          plan.Holds image (plan.loaded below (plan.vertical.window y).start s).window →
            (plan.row below y x width s).result =
              .ok (plan.kernel.pixels (plan.convolved image y) x width) := by
  obtain ⟨hresult, hstate⟩ := hseat.load_eq (plan.vertical.window y).start s
  rw [row, TapTable.taps?_eq_window hy, Pull.lookup_some_bind]
  cases hr : (plan.fetchFor below (plan.vertical.window y).start s).result with
  | error e =>
    rw [hr] at hresult
    rw [Pull.bind_of_error hresult]
    exact ⟨hstate, rfl⟩
  | ok _ =>
    rw [hr] at hresult
    rw [Pull.bind_of_ok hresult, Pull.read_bind, hstate]
    have hsize := size_loaded_of_ok hs hr
    obtain ⟨image, hholds⟩ := (hseat.intact_loaded _ hs).exists_holds
    -- any image whose rows the window holds gives the pixels, so they do not depend on it
    have hblend (image : Nat → Bytes)
        (h : plan.Holds image (plan.loaded below (plan.vertical.window y).start s).window) :=
      h.blendRow?_eq hseat.fits rfl hsize hy hx
    refine ⟨?_, fun image hholds => ?_⟩
    · rw [hblend image hholds]
      rfl
    · rw [hblend image hholds]
      rfl

end Seated

end Resampling

end Resampler

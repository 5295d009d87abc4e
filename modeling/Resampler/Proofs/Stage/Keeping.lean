import Resampler.Proofs.Stage.Progress
import Resampler.Proofs.Tracking

/-!
Stages that keep rows as they came.

A resampling stage may be asked to keep, beside each row of its window, the bytes that the
row was made of. Nothing but the kept bytes themselves shows it: leaving them out of a window
(`State.plain`) gives the window of a stage that does not keep them, and each step of
the one stage then is the step of the other, whatever the source does. What is kept is a row
for each line of the window and nothing for any other number. A source that keeps a
record of its answers tells which bytes these are: those that it gave for the row the last
time. A load appends what it fetches and fetches no row that the window still holds, so that
no later answer can replace them, and a row whose fetch fails is not recorded as given.
-/

namespace Resampler

namespace Source

variable {σ : Type}

/-- A source with a record of what it was asked and of what came of it. -/
structure Recorded (σ : Type) where
  inner : σ
  /-- the latest answer comes first -/
  record : List (Request × Except Failure Bytes)

/-- Records every request, be it answered or not. -/
def recorded (src : Source σ) : Source (Recorded σ) where
  size := src.size
  format := src.format
  copy q buffer s :=
    let reply := src.copy q buffer s.inner
    ⟨reply.result, reply.buffer,
      ⟨reply.state, (q, reply.result.map fun _ => reply.buffer) :: s.record⟩, reply.events⟩
  size_copy q buffer s := src.size_copy q buffer s.inner

/-- Behind the record the source is as it was. -/
theorem tracks_recorded (src : Source σ) : src.recorded.Tracks Recorded.inner src where
  size_eq := rfl
  format_eq := rfl
  copy_eq _ _ _ := rfl

/-- The bytes that the source gave for a request when it last gave any. -/
def Recorded.latest? (s : Recorded σ) (q : Request) : Option Bytes :=
  s.record.findSome? fun a => if a.1 = q then a.2.toOption else none

/-- The request for the whole of row `y`. -/
def line (src : Source σ) (y : Nat) : Request :=
  ⟨Region.line src.size.width y, src.format.rowBytes src.size.width⟩

variable {src : Source σ} {y z : Nat}

theorem line_ne_line (hy : y < src.size.height.toNat) (hz : z < src.size.height.toNat)
    (hne : z ≠ y) : src.line z ≠ src.line y := by
  intro heq
  have hplace : UInt32.ofNat z = UInt32.ofNat y := congrArg (·.region.y) heq
  have hnum := congrArg UInt32.toNat hplace
  rw [toNat_ofNat_of_le (Nat.le_of_lt hy), toNat_ofNat_of_le (Nat.le_of_lt hz)] at hnum
  exact hne hnum

/-- A row that is fetched becomes the latest of its number, and a fetch that fails changes
nothing. -/
theorem fetchRow_recorded (src : Source σ) (y : Nat) (s : Recorded σ) :
    (src.recorded.fetchRow y).Ensures (· = s)
      (fun row s' => s'.latest? (src.line y) = some row ∧
        ∀ q ≠ src.line y, s'.latest? q = s.latest? q)
      fun _ s' => ∀ q, s'.latest? q = s.latest? q := by
  rintro s rfl
  simp only [fetchRow, recorded, Recorded.latest?, List.findSome?_cons]
  rw [show Request.mk (Region.line src.size.width y) (src.format.rowBytes src.size.width) =
    src.line y from rfl]
  generalize src.copy _ _ s.inner = reply
  cases reply.result with
  | error e =>
    intro q
    by_cases hq : src.line y = q <;> simp [hq, Except.map, Except.toOption]
  | ok _ =>
    refine ⟨by simp [Except.map, Except.toOption], fun q hq => ?_⟩
    rw [if_neg hq.symm]

/-- The rows that are fetched become the latest of their numbers, and no other row does. -/
theorem latest?_fetchRows_recorded (src : Source σ) {y n : Nat}
    (hheight : y + n ≤ src.size.height.toNat) (s : Recorded σ) :
    (∀ i (hi : i < (src.recorded.fetchRows y n s).rows.length),
        (src.recorded.fetchRows y n s).state.latest? (src.line (y + i)) =
          some (src.recorded.fetchRows y n s).rows[i]) ∧
      ∀ z < y, (src.recorded.fetchRows y n s).state.latest? (src.line z) =
        s.latest? (src.line z) := by
  -- on the rows that are left; those before them are the latest already
  induction n generalizing y s with
  | zero => exact ⟨fun i hi => absurd hi (Nat.not_lt_zero i), fun z _ => rfl⟩
  | succ n ih =>
    have hfirst := src.fetchRow_recorded y s
    cases hr : (src.recorded.fetchRow y s).result with
    | error e =>
      rw [fetchRows_of_error hr]
      exact ⟨fun i hi => absurd hi (Nat.not_lt_zero i), fun z _ => hfirst.error rfl hr (src.line z)⟩
    | ok row =>
      obtain ⟨hnew, hold⟩ := hfirst.ok rfl hr
      rw [fetchRows_of_ok hr]
      obtain ⟨hrest, hkeep⟩ := ih (y := y + 1) (by omega) (src.recorded.fetchRow y s).state
      refine ⟨fun i hi => ?_, fun z hz => ?_⟩
      · cases i with
        | zero => exact (hkeep y (Nat.lt_succ_self y)).trans hnew
        | succ i =>
          rw [show y + (i + 1) = y + 1 + i by omega]
          exact hrest i (Nat.lt_of_succ_lt_succ hi)
      · rw [hkeep z (by omega)]
        exact hold _ (line_ne_line (by omega) (by omega) (Nat.ne_of_lt hz))

end Source

namespace Band

/-- A window keeps rows of its own only. -/
theorem mem_of_keptRow? {w : Band} {y : Nat} {raw : Bytes} (h : w.keptRow? y = some raw) :
    w.start ≤ y ∧ y < w.stop := by
  unfold keptRow? at h
  split at h
  case isTrue hlo =>
    obtain ⟨line, hline, -⟩ := Option.bind_eq_some_iff.mp h
    obtain ⟨hhi, -⟩ := Array.getElem?_eq_some_iff.mp hline
    exact ⟨hlo, by unfold stop; omega⟩
  case isFalse => cases h

/-- The window without the rows as they came. -/
def plain (w : Band) : Band :=
  { w with lines := w.lines.map fun line => { line with source := none } }

@[simp] theorem start_plain (w : Band) : w.plain.start = w.start := rfl

@[simp] theorem size_plain (w : Band) : w.plain.lines.size = w.lines.size := by simp [plain]

@[simp] theorem stop_plain (w : Band) : w.plain.stop = w.stop := by simp [stop]

@[simp] theorem rows_plain (w : Band) : w.plain.rows = w.rows := by
  simp [plain, rows]

@[simp] theorem keptRow?_plain (w : Band) (y : Nat) : w.plain.keptRow? y = none := by
  unfold keptRow? plain
  split
  · rw [Array.getElem?_map]
    cases w.lines[y - w.start]? <;> rfl
  · rfl

theorem plain_moveTo (w : Band) (start : Nat) : w.plain.moveTo start = (w.moveTo start).plain := by
  simp only [moveTo, start_plain, stop_plain, size_plain]
  by_cases hkeep : w.start ≤ start ∧ start < w.stop
  · rw [if_pos hkeep, if_pos hkeep]
    simp [plain]
  · rw [if_neg hkeep, if_neg hkeep]
    simp [plain]

theorem plain_push (w : Band) (line : Line) :
    w.plain.push { line with source := none } = (w.push line).plain := by
  simp [plain, push]

end Band

/-- The replies say the same, whatever state the machines are in after them. -/
structure Reply.Alike {σ τ : Type} (reply : Reply σ) (other : Reply τ) : Prop where
  result_eq : reply.result = other.result
  buffer_eq : reply.buffer = other.buffer
  events_eq : reply.events = other.events

namespace Resampling

variable {σ : Type}

/-- The same tables for a stage that does not keep rows. -/
def plain (plan : Resampling) : Resampling := { plan with keepsSource := false }

/-- The state of a stage that does not keep rows. -/
def State.plain (s : State σ) : State σ := { s with window := s.window.plain }

@[simp] theorem plain_initial (s : σ) : (State.initial s).plain = State.initial s := by
  simp [State.plain, State.initial, Band.plain, Band.empty]

theorem tracks_onSource {β : Type} (m : Pull σ β) :
    Pull.Tracks State.plain (onSource m) (onSource m) := fun _ => rfl

variable (plan : Resampling) (below : Source σ)

theorem tracks_fetchLine (y : Nat) :
    Pull.Tracks State.plain (plan.fetchLine below y) (plan.plain.fetchLine below y) :=
  (tracks_onSource _).bind fun raw => (Pull.tracks_lookup _).bind fun samples =>
    Pull.tracks_update fun s => congrArg (fun w => ({ s with window := w } : State σ))
      (s.window.plain_push ⟨samples, if plan.keepsSource then some raw else none⟩)

theorem tracks_fetchLines (y n : Nat) :
    Pull.Tracks State.plain (plan.fetchLines below y n) (plan.plain.fetchLines below y n) := by
  induction n generalizing y with
  | zero => exact Pull.tracks_pure ()
  | succ n ih => exact (plan.tracks_fetchLine below y).bind fun _ => ih (y + 1)

theorem tracks_load (start : Nat) :
    Pull.Tracks State.plain (plan.load below start) (plan.plain.load below start) := by
  unfold load
  refine (Pull.tracks_update fun s => ?_).bind fun _ =>
    (Pull.tracks_read fun s => s.window.size_plain).bind fun reused =>
      (plan.tracks_fetchLines below _ _).bind fun _ =>
        .bind (Pull.tracks_update fun s => ?_) fun _ => ?_
  case refine_1 =>
    exact congrArg (fun w => ({ s with window := w } : State σ)) (s.window.plain_moveTo start)
  case refine_2 => rfl
  case refine_3 =>
    -- the number of missing rows is that of the other stage, so both report a load or neither
    change Pull.Tracks State.plain (if 0 < plan.vertical.tapCount - reused then _ else _)
      (if 0 < plan.vertical.tapCount - reused then _ else _)
    split
    · exact Pull.tracks_report _
    · exact Pull.tracks_pure ()

theorem tracks_row (y x width : Nat) :
    Pull.Tracks State.plain (plan.row below y x width) (plan.plain.row below y x width) :=
  (Pull.tracks_lookup _).bind fun taps => (plan.tracks_load below taps.start).bind fun _ =>
    (Pull.tracks_read fun s => s.window.rows_plain).bind fun _ => Pull.tracks_lookup _

/-- A stage that keeps rows is, but for these, the stage that does not. -/
theorem tracks_source : (plan.source below).Tracks State.plain (plan.plain.source below) :=
  Source.tracks_ofRows fun region y => plan.tracks_row below y region.x.toNat region.width.toNat

/-- Each line of the window was made of what the source gave for its row the last time. -/
def Current (plan : Resampling) (src : Source σ) (s : State (Source.Recorded σ)) : Prop :=
  ∀ i < s.window.lines.size, ∃ raw, s.below.latest? (src.line (s.window.start + i)) = some raw ∧
    s.window.lines[i]? = some (plan.lineOfRow raw)

variable {plan : Resampling} {src : Source σ}

theorem current_iff_madeOf {s : State (Source.Recorded σ)} : plan.Current src s ↔
    plan.MadeOf (fun y raw => s.below.latest? (src.line y) = some raw) s.window := Iff.rfl

theorem current_initial (s : Source.Recorded σ) : plan.Current src (.initial s) :=
  current_iff_madeOf.mpr madeOf_empty

/-- A load fetches no row that the window still holds. -/
theorem Current.loaded {s : State (Source.Recorded σ)} (h : plan.Current src s)
    (hw : plan.Intact s.window) {start : Nat}
    (hheight : start + plan.vertical.tapCount ≤ src.size.height.toNat) :
    plan.Current src (plan.loaded src.recorded start s) := by
  have hsize := (hw.moveTo start).size_le
  obtain ⟨hnew, hold⟩ := src.latest?_fetchRows_recorded
    (y := (s.window.moveTo start).stop)
    (n := plan.vertical.tapCount - (s.window.moveTo start).lines.size)
    (by rw [Band.stop, Band.start_moveTo]; omega) s.below
  exact current_iff_madeOf.mpr (((current_iff_madeOf.mp h).moveTo start).extend
    (fun y raw hy hlatest => (hold y hy).trans hlatest) hnew)

/-- The bytes kept are those that the source gave the last time. -/
theorem Current.keptRow?_eq {s : State (Source.Recorded σ)} (h : plan.Current src s)
    (hkeeps : plan.keepsSource = true) {y : Nat} (hlo : s.window.start ≤ y)
    (hhi : y < s.window.stop) :
    ∃ raw, s.window.keptRow? y = some raw ∧ s.below.latest? (src.line y) = some raw :=
  (current_iff_madeOf.mp h).exists_keptRow? hkeeps hlo hhi

/-- What a stage keeps in all states that requests and failures lead to. -/
theorem Seated.kept_after (hseat : plan.Seated src.recorded) (hkeeps : plan.keepsSource = true)
    {s₀ : Source.Recorded σ} {asked : List (Request × Bytes)} {s : State (Source.Recorded σ)}
    (hs : s = (plan.source src.recorded).after (.initial s₀) asked) (y : Nat) :
    ((∃ raw, s.window.keptRow? y = some raw) ↔ s.window.start ≤ y ∧ y < s.window.stop) ∧
      ∀ raw, s.window.keptRow? y = some raw → s.below.latest? (src.line y) = some raw ∧
        ∀ rows, src.Steady s₀.inner rows → raw = rows y := by
  have hstage : (Stage.resampling (α := Unit) plan).Seated src.recorded := hseat
  have hcurrent : plan.Intact s.window ∧ plan.Current src s := by
    rw [hs]
    exact hstage.after_rule (P := fun s => plan.Intact s.window ∧ plan.Current src s)
      (fun _ h => h.1)
      (fun _ h _ hy => ⟨hseat.intact_loaded _ h.1, h.2.loaded h.1 (hstage.window_le hy)⟩)
      asked ⟨intact_empty, current_initial s₀⟩
  refine ⟨⟨fun ⟨_, hraw⟩ => Band.mem_of_keptRow? hraw, fun ⟨hlo, hhi⟩ => ?_⟩, fun raw hraw => ?_⟩
  · obtain ⟨raw, hraw, -⟩ := hcurrent.2.keptRow?_eq hkeeps hlo hhi
    exact ⟨raw, hraw⟩
  · obtain ⟨hlo, hhi⟩ := Band.mem_of_keptRow? hraw
    obtain ⟨_, hkept, hlatest⟩ := hcurrent.2.keptRow?_eq hkeeps hlo hhi
    rw [hraw] at hkept
    cases hkept
    refine ⟨hlatest, fun rows hsteady => ?_⟩
    have hgives := (src.tracks_recorded.steady hsteady).gives
    have hco := (hseat.stands hgives).serves.keeps_after
      (coherent_initial (Source.reaches_self _ s₀)) ⟨asked, hs⟩
    rw [hco.window.keptRow?_eq hkeeps hlo hhi] at hraw
    exact (Option.some.inj hraw).symm

/-- Whether rows are kept makes no difference to whether tables fit a source. -/
theorem build_plain {β : Type} (sourceSize : Size) (format : PixelFormat)
    (horizontal vertical : TapTable) :
    (build sourceSize format horizontal vertical false : Except (SetupError β) Resampling) =
      Resampling.plain <$> build sourceSize format horizontal vertical true := by
  unfold build
  rw [map_bind]
  refine bind_congr fun kernel => ?_
  rw [map_bind]
  refine bind_congr fun _ => ?_
  rw [map_bind]
  refine bind_congr fun _ => ?_
  split
  · rfl
  · rfl

theorem seated_of_build {β : Type} (below : Source σ) {horizontal vertical : TapTable}
    {keepsSource : Bool}
    (h : (build below.size below.format horizontal vertical keepsSource :
      Except (SetupError β) Resampling) = .ok plan)
    (hhorizontal : horizontal.Confined) (hvertical : vertical.Confined) :
    plan.Seated below ∧ plan.keepsSource = keepsSource := by
  have hfits := fits_of_build h hhorizontal hvertical
  obtain ⟨_, -, -, -, -, -, rfl⟩ := build_eq_ok_iff.mp h
  exact ⟨⟨hfits, rfl, rfl⟩, rfl⟩

end Resampling

namespace Chain

variable {α σ : Type} {horizontal vertical : TapTable}

/-- A stage that keeps its rows and one that does not, put on the same source with the same tables.
They are put there or refused alike. After any requests, some of which may have failed with the
source, they have asked the source for the same and got the same, have fetched as many
rows, and answer every further request alike. The stage that keeps its rows has those of its
window and no others, with the bytes that the source gave for them the last time; if the source
gives the rows of one image, it has the rows of this image. The other stage has none. -/
theorem keeping_unobservable (src : Source σ) (hhorizontal : horizontal.Made)
    (hvertical : vertical.Made) :
    let below : Chain α (Source.Recorded σ) := .base src.recorded
    (∀ e, (below.withTables horizontal vertical true).result = .error e ↔
      (below.withTables horizontal vertical false).result = .error e) ∧
    ∀ plan, (below.withTables horizontal vertical true).result = .ok (below.resample plan) →
      (below.withTables horizontal vertical false).result = .ok (below.resample plan.plain) ∧
      ∀ (s₀ : Source.Recorded σ) (asked : List (Request × Bytes)) (kept plain),
        kept = (plan.source src.recorded).after (.initial s₀) asked →
        plain = (plan.plain.source src.recorded).after (.initial s₀) asked →
        plain.below = kept.below ∧ plain.fetched = kept.fetched ∧
        (∀ q buffer, ((plan.plain.source src.recorded).copy q buffer plain).Alike
          ((plan.source src.recorded).copy q buffer kept)) ∧
        (∀ y, (∃ raw, kept.window.keptRow? y = some raw) ↔
          kept.window.start ≤ y ∧ y < kept.window.stop) ∧
        (∀ y raw, kept.window.keptRow? y = some raw →
          kept.below.latest? (src.line y) = some raw ∧
            ∀ rows, src.Steady s₀.inner rows → raw = rows y) ∧
        ∀ y, plain.window.keptRow? y = none := by
  intro below
  refine ⟨fun e => ?_, fun plan hplan => ?_⟩
  · rw [result_withTables, result_withTables, Resampling.build_plain]
    cases (Resampling.build below.size below.format horizontal vertical true :
        Except (SetupError α) Resampling) with
    | error _ => exact Iff.rfl
    | ok _ => exact ⟨nofun, nofun⟩
  obtain ⟨_, hbuild, heq⟩ := withTables_eq_ok_iff.mp hplan
  cases heq
  refine ⟨?_, fun s₀ asked kept plain hkept hplain => ?_⟩
  · rw [result_withTables, Resampling.build_plain, hbuild]
    rfl
  obtain ⟨hseat, hkeeps⟩ := Resampling.seated_of_build src.recorded hbuild
    hhorizontal.confined hvertical.confined
  have htracks := plan.tracks_source src.recorded
  have hseen : plain = kept.plain := by
    rw [hplain, hkept, ← htracks.after, Resampling.plain_initial]
  have hkeptRows (y : Nat) := hseat.kept_after hkeeps hkept y
  subst hseen
  refine ⟨rfl, rfl, fun q buffer => ?_, fun y => (hkeptRows y).1, fun y => (hkeptRows y).2,
    fun y => Band.keptRow?_plain _ y⟩
  rw [htracks.copy_eq]
  exact ⟨rfl, rfl, rfl⟩

/-- The mean of two grey pixels is asked for, and the source fails at the second. The stage that
keeps its rows has the first one then, and the other stage has asked the source for as much. -/
theorem keeping_unobservable_grey_pair :
    let img : Image := ⟨⟨1, 2⟩, .grey8, #[10, 200], by decide, by decide⟩
    let src : Source (Source.Failing Unit) := img.source.failing 1
    let start : Source.Recorded (Source.Failing Unit) := ⟨⟨(), 1, 0⟩, []⟩
    ∃ plan : Resampling,
      let kept := (plan.source src.recorded).after (.initial start) [(⟨⟨0, 0, 1, 1⟩, 1⟩, #[0])]
      let plain :=
        (plan.plain.source src.recorded).after (.initial start) [(⟨⟨0, 0, 1, 1⟩, 1⟩, #[0])]
      kept.window.keptRow? 0 = some (img.row 0) ∧ (¬∃ raw, kept.window.keptRow? 1 = some raw) ∧
        plain.window.keptRow? 0 = none ∧ plain.below.record.length = 2 ∧
          plain.below = kept.below := by
  intro img src start
  have hhorizontal : TapTable.scale (1 : UInt32).toNat (1 : UInt32).toNat 1 false
      (.plain .box : Interpolation Float) = .ok ⟨1, 1, 1, #[⟨0, #[32768]⟩]⟩ :=
    eq_ok_of_toOption (by decide +kernel)
  have hvertical : TapTable.scale (2 : UInt32).toNat (1 : UInt32).toNat 1 false
      (.plain .box : Interpolation Float) = .ok ⟨2, 2, 1, #[⟨0, #[16384, 16384]⟩]⟩ :=
    eq_ok_of_toOption (by decide +kernel)
  let plan : Resampling := ⟨⟨1, 2⟩, .grey8, ⟨1, .eight, .none⟩, ⟨1, 1, 1, #[⟨0, #[32768]⟩]⟩,
    ⟨2, 2, 1, #[⟨0, #[16384, 16384]⟩]⟩, true⟩
  obtain ⟨-, hbuilt⟩ := keeping_unobservable (α := Float) src (.scale hhorizontal)
    (.scale hvertical)
  have hplan : ((Chain.base src.recorded : Chain Float _).withTables ⟨1, 1, 1, #[⟨0, #[32768]⟩]⟩
      ⟨2, 2, 1, #[⟨0, #[16384, 16384]⟩]⟩ true).result =
        .ok ((Chain.base src.recorded).resample plan) :=
    withTables_eq_ok_iff.mpr ⟨plan, Resampling.build_eq_ok_iff.mpr ⟨⟨1, .eight, .none⟩, rfl, rfl,
      rfl, rfl, rfl, rfl⟩, rfl⟩
  obtain ⟨-, hrun⟩ := hbuilt plan hplan
  obtain ⟨hbelow, -, -, hkept, hrows, hplain⟩ :=
    hrun start [(⟨⟨0, 0, 1, 1⟩, 1⟩, #[0])] _ _ rfl rfl
  have hgives : src.Gives (fun _ => True) img.row _ := img.serves.gives.failing 1
  obtain ⟨raw, hraw⟩ := (hkept 0).mpr (by decide +kernel)
  obtain ⟨-, hrow⟩ := hrows 0 raw hraw
  refine ⟨plan, ?_, fun hsome => absurd ((hkept 1).mp hsome) (by decide +kernel), hplain 0,
    by decide +kernel, hbelow⟩
  rw [hraw, hrow img.row (hgives.steady _)]

end Chain

end Resampler

import Resampler.Proofs.Stage.Progress

/-!
The order in which rows are fetched.

Rows that are asked for from top to bottom are fetched from top to bottom, and none of them
twice. What a stage asks of its source is again a run from top to bottom, so this holds through
any number of stages. The invariant is a mark that only moves down: a source is before
a row, `InOrder`, if fetching that row takes it behind the row and a failure leaves it where it
was. A stage has its mark at the end of its window, where its next fetch will be; it can keep
it there as long as no window that is still to come starts before its own.
-/

namespace Resampler

namespace Source

variable {σ : Type}

/-- The rows that a request gets to: all of them, or those up to the one that fails. A malformed
request gets to none. -/
def tried (src : Source σ) (q : Request) (buffer : Bytes) (s : σ) : List Nat :=
  match q.check src.size src.format buffer.size with
  | .error _ => []
  | .ok _ => ((List.range q.region.height.toNat).filter fun k =>
      (src.copy (q.top k) buffer s).result.isOk).map (q.region.y.toNat + ·)

/-- The rows that the requests of a run get to, in order. -/
def triedBy (src : Source σ) (s : σ) : List (Request × Bytes) → List Nat
  | [] => []
  | a :: asked => src.tried a.1 a.2 s ++ src.triedBy (src.copy a.1 a.2 s).state asked

/-- Every request of a run is answered unless it is malformed. -/
def Answers (src : Source σ) (s : σ) : List (Request × Bytes) → Prop
  | [] => True
  | a :: asked =>
    (∀ n, a.1.check src.size src.format a.2.size = .ok n →
      (src.copy a.1 a.2 s).result = .ok ()) ∧
    src.Answers (src.copy a.1 a.2 s).state asked

/-- In a state before row `y` this row or a later one can be fetched. That takes the source behind
the row, and a failure leaves it before it. -/
structure InOrder (src : Source σ) (B : Nat → σ → Prop) : Prop where
  mono : ∀ {y z s}, y ≤ z → B y s → B z s
  fetch : ∀ y < src.size.height.toNat,
    (src.fetchRow y).Ensures (B y) (fun _ => B (y + 1)) fun _ => B y

/-- The log is in strict order, and all of it lies before row `y`. -/
structure Logged.Before (y : Nat) (s : Logged σ) : Prop where
  sorted : s.numbers.Pairwise (· < ·)
  lt : ∀ z ∈ s.numbers, z < y

theorem before_empty (s : σ) : Logged.Before 0 (⟨s, #[]⟩ : Logged σ) where
  sorted := List.Pairwise.nil
  lt z hz := by cases hz

theorem inOrder_logged (src : Source σ) : src.logged.InOrder Logged.Before where
  mono hyz h := ⟨h.sorted, fun z hz => Nat.lt_of_lt_of_le (h.lt z hz) hyz⟩
  fetch y hy := by
    refine Pull.Ensures.of_state fun s hs => ?_
    refine (src.numbers_fetchRow_logged hy s.numbers).weaken ?_ (fun _ s' h => ?_) fun _ s' h => ?_
    · rintro _ rfl
      rfl
    · refine ⟨?_, fun z hz => ?_⟩
      · rw [h, List.pairwise_append]
        refine ⟨hs.sorted, List.pairwise_singleton _ _, fun z hz z' hz' => ?_⟩
        rw [List.mem_singleton.mp hz']
        exact hs.lt z hz
      · rw [h, List.mem_append, List.mem_singleton] at hz
        rcases hz with hold | rfl
        · exact Nat.lt_succ_of_lt (hs.lt z hold)
        · exact Nat.lt_succ_self _
    · exact ⟨h ▸ hs.sorted, h ▸ hs.lt⟩

end Source

namespace Stage

variable {α σ : Type} {stage : Stage α} {below : Source σ} {B : Nat → σ → Prop} {F : Nat → Prop}
  {s : Resampling.State σ}

/-- The source is before the row at which the window ends, and none of the rows to come has a
window that starts before this one. -/
structure Ahead (stage : Stage α) (B : Nat → σ → Prop) (F : Nat → Prop) (s : Resampling.State σ) :
    Prop where
  window : stage.tables.Intact s.window
  below : B s.window.stop s.below
  start_le : ∀ y, F y → y < stage.tables.vertical.outputSize →
    s.window.start ≤ (stage.tables.vertical.window y).start

theorem ahead_initial {s : σ} (h : B 0 s) : stage.Ahead B F (.initial s) where
  window := Resampling.intact_empty
  below := h
  start_le _ _ _ := Nat.zero_le _

theorem Ahead.mono {F' : Nat → Prop} (h : stage.Ahead B F s) (hF : ∀ y, F' y → F y) :
    stage.Ahead B F' s :=
  ⟨h.window, h.below, fun y hy => h.start_le y (hF y hy)⟩

section InOrder

variable (hseat : stage.Seated below) (hin : below.InOrder B)
  (hasc : stage.tables.vertical.Ascending)
include hseat hin hasc

theorem Ahead.loaded (h : stage.Ahead B F s) {y : Nat} (hy : y < stage.tables.size.height.toNat)
    (hnext : F y) (hleast : ∀ z, F z → y ≤ z) : stage.Ahead B F (stage.loaded below y s) := by
  have hout := Nat.lt_of_lt_of_le hy stage.tables.height_le
  have hinside := hseat.window_le hy
  have hroom := (h.window.moveTo (stage.tables.vertical.window y).start).size_le
  -- the window moves down, and so its end does not move up
  have hstop := s.window.stop_le_stop_moveTo (h.start_le y hnext hout)
  have hrule := Source.fetchRows_rule B (fun z _ => B z)
    (y := (s.window.moveTo (stage.tables.vertical.window y).start).stop)
    (n := stage.tables.vertical.tapCount -
      (s.window.moveTo (stage.tables.vertical.window y).start).lines.size)
    (fun z _ hz => hin.fetch z (by
      rw [Band.stop, Band.start_moveTo] at hz
      omega))
    (hin.mono hstop h.below)
  refine ⟨hseat.tables.intact_loaded _ h.window, ?_, fun z hz hzout => hasc y z (hleast z hz) hzout⟩
  rw [Stage.loaded, Resampling.stop_loaded]
  split at hrule
  · rw [Resampling.fetchFor, hrule.1]
    exact hrule.2
  · exact hrule.2

/-- What lies ahead of a stage lies ahead of it as a source. -/
theorem inOrder_source : (stage.source below).InOrder fun y => stage.Ahead B (y ≤ ·) where
  mono hyz h := h.mono fun _ hz => Nat.le_trans hyz hz
  fetch y hy := by
    intro s hs
    rw [size_source] at hy
    obtain ⟨hstate, -⟩ := hseat.fetchRow_eq hs.window hy
    have hafter := hs.loaded hseat hin hasc hy le_rfl fun _ hz => hz
    rw [← hstate] at hafter
    split
    · exact hafter.mono fun z hz => Nat.le_of_succ_le hz
    · exact hafter

section Request

variable {q : Request} {buffer : Bytes} {n : Nat}
  (hq : q.check stage.tables.size stage.tables.format buffer.size = .ok n)
include hq

omit hseat hin hasc in
theorem mem_tried_iff {y : Nat} : y ∈ (stage.source below).tried q buffer s ↔
    ∃ k < q.region.height.toNat, (stage.lay below q k buffer s).result = .ok () ∧
      y = q.region.y.toNat + k := by
  have hq' : q.check (stage.source below).size (stage.source below).format buffer.size = .ok n := by
    rwa [size_source, format_source]
  have hok (k : Nat) (hk : k < q.region.height.toNat) :
      ((stage.source below).copy (q.top k) buffer s).result.isOk ↔
        (stage.lay below q k buffer s).result = .ok () := by
    rw [copy_top hq (Nat.le_of_lt hk)]
    cases (stage.lay below q k buffer s).result <;> simp [Except.isOk, Except.toBool]
  simp only [Source.tried, hq', List.mem_map, List.mem_filter, List.mem_range]
  constructor
  · rintro ⟨k, ⟨hk, hmade⟩, rfl⟩
    exact ⟨k, hk, (hok k hk).mp hmade, rfl⟩
  · rintro ⟨k, hk, hmade, rfl⟩
    exact ⟨k, ⟨hk, (hok k hk).mpr hmade⟩, rfl⟩

/-- A request keeps the stage ahead of the rows that come after those that it gets to. -/
theorem Ahead.lay {k : Nat} (hk : k ≤ q.region.height.toNat)
    (h : stage.Ahead B (fun y => F y ∨ ∃ r < k, (stage.lay below q r buffer s).result = .ok () ∧
      y = q.region.y.toNat + r) s)
    (hlater : ∀ r < k, (stage.lay below q r buffer s).result = .ok () →
      ∀ z, F z → q.region.y.toNat + r ≤ z) :
    stage.Ahead B F (stage.lay below q k buffer s).state := by
  induction k generalizing F with
  | zero => exact h.mono fun _ => .inl
  | succ k ih =>
    have hk' := Nat.le_of_succ_le hk
    cases hr : (stage.lay below q k buffer s).result with
    | error e =>
      rw [lay_succ_of_error hr]
      refine ih hk' (h.mono ?_) fun r hr => hlater r (Nat.lt_succ_of_lt hr)
      rintro y (hy | ⟨r, hr, hy⟩)
      · exact .inl hy
      · exact .inr ⟨r, Nat.lt_succ_of_lt hr, hy⟩
    | ok _ =>
      -- of the rows that come after the first `k`, this one is the next
      have hbefore : stage.Ahead B (fun y => y = q.region.y.toNat + k ∨ F y)
          (stage.lay below q k buffer s).state := by
        refine ih hk' (h.mono ?_) fun r hr hmade z hz => ?_
        · rintro y ((rfl | hy) | ⟨r, hr, hy⟩)
          · exact .inr ⟨k, Nat.lt_succ_self k, hr, rfl⟩
          · exact .inl hy
          · exact .inr ⟨r, Nat.lt_succ_of_lt hr, hy⟩
        · rcases hz with rfl | hz
          · omega
          · exact hlater r (Nat.lt_succ_of_lt hr) hmade z hz
      obtain ⟨hlow, -⟩ := Request.bounds_of_check hq hk
      rw [(hseat.lay_succ hq hk rfl hr hbefore.window).1]
      refine (hbefore.loaded hseat hin hasc hlow (.inl rfl) ?_).mono fun _ => .inr
      rintro z (rfl | hz)
      · exact le_rfl
      · exact hlater k (Nat.lt_succ_self k) hr z hz

end Request

theorem Ahead.copy {q : Request} {buffer : Bytes}
    (h : stage.Ahead B (fun y => F y ∨ y ∈ (stage.source below).tried q buffer s) s)
    (hlater : ∀ y ∈ (stage.source below).tried q buffer s, ∀ z, F z → y ≤ z) :
    stage.Ahead B F ((stage.source below).copy q buffer s).state := by
  cases hq : q.check stage.tables.size stage.tables.format buffer.size with
  | error e =>
    rw [copy_of_check_error hq]
    exact h.mono fun _ => .inl
  | ok n =>
    rw [copy_eq hq]
    simp only [mem_tried_iff hq] at h hlater
    exact h.lay hseat hin hasc hq le_rfl fun r hr hmade z hz => hlater _ ⟨r, hr, hmade, rfl⟩ z hz

/-- A run from top to bottom leaves the source before some row. -/
theorem Ahead.after {asked : List (Request × Bytes)}
    (h : stage.Ahead B (· ∈ (stage.source below).triedBy s asked) s)
    (hsorted : ((stage.source below).triedBy s asked).Pairwise (· ≤ ·)) :
    stage.Ahead B (fun _ => False) ((stage.source below).after s asked) := by
  induction asked generalizing s with
  | nil => exact h.mono fun _ hy => hy.elim
  | cons a asked ih =>
    obtain ⟨-, hrest, hacross⟩ := List.pairwise_append.mp hsorted
    refine ih (Ahead.copy hseat hin hasc (h.mono ?_) hacross) hrest
    rintro y (hy | hy)
    · exact List.mem_append_right _ hy
    · exact List.mem_append_left _ hy

end InOrder

/-! What a log holds after a run without failures. -/

section Logged

variable {src : Source σ} {s : Resampling.State (Source.Logged σ)}

/-- Every row of the window is in the log. -/
def Recorded (s : Resampling.State (Source.Logged σ)) : Prop :=
  ∀ z, s.window.start ≤ z → z < s.window.stop → z ∈ s.below.numbers

variable (hseat : stage.Seated src.logged)
include hseat

theorem mem_numbers_loaded (hw : stage.tables.Intact s.window) (hrec : Recorded s) {y : Nat}
    (hy : y < stage.tables.size.height.toNat) {u : Unit}
    (hok : (stage.fetchFor src.logged y s).result = .ok u) :
    (∀ z, z ∈ (stage.loaded src.logged y s).below.numbers ↔
      z ∈ s.below.numbers ∨ stage.tables.vertical.Covers y z) ∧
      Recorded (stage.loaded src.logged y s) := by
  have hinside := hseat.window_le hy
  rw [Source.size_logged] at hinside
  have hroom := (hw.moveTo (stage.tables.vertical.window y).start).size_le
  have hsize := Resampling.size_loaded_of_ok hw hok
  have hstop : (s.window.moveTo (stage.tables.vertical.window y).start).stop =
    (stage.tables.vertical.window y).start +
      (s.window.moveTo (stage.tables.vertical.window y).start).lines.size := rfl
  have hnumbers : ∀ z, z ∈ (stage.loaded src.logged y s).below.numbers ↔
      z ∈ s.below.numbers ∨ stage.tables.vertical.Covers y z := by
    intro z
    refine (Source.mem_numbers_fetchRows_logged (by omega) hok z).trans ?_
    unfold TapTable.Covers
    constructor
    · rintro (hold | hnew)
      · exact .inl hold
      · right
        omega
    · rintro (hold | hnew)
      · exact .inl hold
      -- a row of the new window was in the old one or was fetched now
      · by_cases hkept : z < (s.window.moveTo (stage.tables.vertical.window y).start).stop
        · obtain ⟨hlo, hhi⟩ := s.window.stop_moveTo_of_mem hnew.1 hkept
          exact .inl (hrec z hlo hhi)
        · right
          omega
  refine ⟨hnumbers, fun z hlo hhi => (hnumbers z).mpr (.inr ⟨hlo, ?_⟩)⟩
  rw [Band.stop, Stage.loaded, hsize] at hhi
  exact hhi

theorem mem_numbers_lay {q : Request} {buffer : Bytes} {n : Nat}
    (hq : q.check stage.tables.size stage.tables.format buffer.size = .ok n)
    (hw : stage.tables.Intact s.window) (hrec : Recorded s) {k : Nat}
    (hk : k ≤ q.region.height.toNat) {u : Unit}
    (hok : (stage.lay src.logged q k buffer s).result = .ok u) :
    (∀ z, z ∈ (stage.lay src.logged q k buffer s).state.below.numbers ↔ z ∈ s.below.numbers ∨
      ∃ r < k, stage.tables.vertical.Covers (q.region.y.toNat + r) z) ∧
      Recorded (stage.lay src.logged q k buffer s).state := by
  induction k with
  | zero => exact ⟨fun z => by simp [lay, Source.layRows], hrec⟩
  | succ k ih =>
    have hk' := Nat.le_of_succ_le hk
    have hmade := lay_ok_of_le (Nat.le_succ k) hok
    have hintact := hseat.intact_lay hq hk' hw
    obtain ⟨hnumbers, hrecorded⟩ := ih hk' hmade
    obtain ⟨hstate, hresult⟩ := hseat.lay_succ hq hk rfl hmade hintact
    obtain ⟨hlow, -⟩ := Request.bounds_of_check hq hk
    rw [hstate]
    split at hresult
    case h_1 =>
      rw [hresult.1] at hok
      cases hok
    case h_2 u' hfetch =>
      obtain ⟨hadded, hafter⟩ := mem_numbers_loaded hseat hintact hrecorded hlow hfetch
      refine ⟨fun z => ?_, hafter⟩
      rw [hadded, hnumbers, or_assoc]
      refine or_congr_right ⟨?_, ?_⟩
      · rintro (⟨r, hr, h⟩ | h)
        · exact ⟨r, Nat.lt_succ_of_lt hr, h⟩
        · exact ⟨k, Nat.lt_succ_self k, h⟩
      · rintro ⟨r, hr, h⟩
        rcases Nat.lt_succ_iff_lt_or_eq.mp hr with hlt | rfl
        · exact .inl ⟨r, hlt, h⟩
        · exact .inr h

/-- A run of answered requests adds the windows of the rows that it gets to, and nothing else. -/
theorem mem_numbers_after {asked : List (Request × Bytes)} (hw : stage.tables.Intact s.window)
    (hrec : Recorded s) (hanswers : (stage.source src.logged).Answers s asked) (z : Nat) :
    z ∈ ((stage.source src.logged).after s asked).below.numbers ↔ z ∈ s.below.numbers ∨
      ∃ y ∈ (stage.source src.logged).triedBy s asked, stage.tables.vertical.Covers y z := by
  induction asked generalizing s with
  | nil => simp [Source.after, Source.triedBy]
  | cons a asked ih =>
    obtain ⟨hfirst, hrest⟩ := hanswers
    rw [size_source, format_source] at hfirst
    have hcopied : (∀ z, z ∈ ((stage.source src.logged).copy a.1 a.2 s).state.below.numbers ↔
        z ∈ s.below.numbers ∨ ∃ y ∈ (stage.source src.logged).tried a.1 a.2 s,
          stage.tables.vertical.Covers y z) ∧
        Recorded ((stage.source src.logged).copy a.1 a.2 s).state := by
      cases hq : a.1.check stage.tables.size stage.tables.format a.2.size with
      | error e =>
        rw [copy_of_check_error hq]
        have hnone : (stage.source src.logged).tried a.1 a.2 s = [] := by
          simp only [Source.tried, size_source, format_source, hq]
        rw [hnone]
        exact ⟨fun z => by simp, hrec⟩
      | ok n =>
        have hok := hfirst n hq
        rw [copy_eq hq] at hok ⊢
        obtain ⟨hnumbers, hafter⟩ := mem_numbers_lay hseat hq hw hrec le_rfl hok
        refine ⟨fun z => (hnumbers z).trans (or_congr_right ?_), hafter⟩
        simp only [mem_tried_iff hq]
        constructor
        · rintro ⟨r, hr, h⟩
          exact ⟨_, ⟨r, hr, lay_ok_of_le (Nat.le_of_lt hr) hok, rfl⟩, h⟩
        · rintro ⟨_, ⟨r, hr, -, rfl⟩, h⟩
          exact ⟨r, hr, h⟩
    refine (ih (hseat.intact_copy _ _ hw) hcopied.2 hrest).trans ?_
    rw [hcopied.1, or_assoc]
    refine or_congr_right ⟨?_, ?_⟩
    · rintro (⟨y, hy, h⟩ | ⟨y, hy, h⟩)
      · exact ⟨y, List.mem_append_left _ hy, h⟩
      · exact ⟨y, List.mem_append_right _ hy, h⟩
    · rintro ⟨y, hy, h⟩
      rcases List.mem_append.mp hy with hy | hy
      · exact .inl ⟨y, hy, h⟩
      · exact .inr ⟨y, hy, h⟩

end Logged

end Stage

namespace Chain

variable {α σ : Type}

/-- The windows of the resampling stages move down with the rows. -/
def Ascending : Chain α σ → Prop
  | base _ => True
  | resample below plan => below.Ascending ∧ plan.vertical.Ascending
  | sharpen below _ => below.Ascending

/-- The marks of all stages of a chain, down to that of its source. -/
def Ahead : (c : Chain α σ) → (Nat → σ → Prop) → Nat → c.State → Prop
  | base _, B => B
  | resample below plan, B => fun y =>
    (Stage.resampling plan : Stage α).Ahead (below.Ahead B) (y ≤ ·)
  | sharpen below plan, B => fun y => (Stage.sharpening plan).Ahead (below.Ahead B) (y ≤ ·)

variable {B : Nat → σ → Prop}

theorem ahead_start (c : Chain α σ) {s : σ} (h : B 0 s) : c.Ahead B 0 (c.start s) := by
  induction c with
  | base src => exact h
  | resample below plan ih => exact Stage.ahead_initial ih
  | sharpen below plan ih => exact Stage.ahead_initial ih

theorem exists_of_ahead (c : Chain α σ) {y : Nat} {s : c.State} (h : c.Ahead B y s) :
    ∃ z, B z (c.origin s) := by
  induction c generalizing y with
  | base src => exact ⟨y, h⟩
  | resample below plan ih => exact ih h.below
  | sharpen below plan ih => exact ih h.below

variable [Analytic α]

omit [Analytic α] in
theorem ascending_of_put {below : Chain α σ} {stage : Stage α} (h : (below.put stage).Ascending) :
    below.Ascending := by
  cases stage with
  | resampling plan => exact h.1
  | sharpening plan => exact h

theorem Takes.ascending {below : Chain α σ} {stage : Stage α} (hstage : below.Takes stage)
    (h : (below.put stage).Ascending) : stage.tables.vertical.Ascending := by
  cases hstage with
  | resampling _ => exact h.2
  | sharpening hplan =>
    obtain ⟨-, -, hvertical⟩ := tables_of_sharpened hplan
    exact TapTable.ascending_blur hvertical

/-- Through any number of stages, rows that are fetched from top to bottom are fetched from the
source from top to bottom. -/
theorem Built.inOrder {c : Chain α σ} (hc : c.Built) (hasc : c.Ascending)
    (h : c.bottom.InOrder B) : c.source.InOrder (c.Ahead B) := by
  induction hc with
  | base src => exact h
  | resample _ hplan ih =>
    exact Stage.inOrder_source (Takes.resampling hplan).seated (ih hasc.1 h) hasc.2
  | sharpen _ hplan ih =>
    exact Stage.inOrder_source (Takes.sharpening hplan).seated (ih hasc h)
      ((Takes.sharpening hplan).ascending hasc)

/-- A run of requests whose rows come from top to bottom fetches the rows of the source in strict
order, through any number of stages: none is fetched twice, whatever was repeated, left out or
asked for again after a failure. Where no request fails, a single stage fetches just the rows of
the windows that were asked for. -/
theorem log_in_order {below : Chain α (Source.Logged σ)} {stage : Stage α} {src : Source σ}
    (hbelow : below.Built) (hstage : below.Takes stage) (hasc : (below.put stage).Ascending)
    (hbottom : below.bottom = src.logged) (s₀ : σ) (asked : List (Request × Bytes))
    {s : Resampling.State below.State}
    (hs : s = (stage.source below.source).after (.initial (below.start ⟨s₀, #[]⟩)) asked)
    (hrun : ((stage.source below.source).triedBy (.initial (below.start ⟨s₀, #[]⟩)) asked).Pairwise
      (· ≤ ·)) :
    (below.origin s.below).numbers.Pairwise (· < ·) ∧
      (below = .base src.logged →
        (stage.source below.source).Answers (.initial (below.start ⟨s₀, #[]⟩)) asked →
          ∀ z, z ∈ (below.origin s.below).numbers ↔
            ∃ y ∈ (stage.source below.source).triedBy (.initial (below.start ⟨s₀, #[]⟩)) asked,
              stage.tables.vertical.Covers y z) := by
  have hseat := hstage.seated
  subst hs
  constructor
  · have hin := hbelow.inOrder (ascending_of_put hasc) (hbottom ▸ Source.inOrder_logged src)
    have hafter := Stage.Ahead.after hseat hin (hstage.ascending hasc)
      (Stage.ahead_initial (below.ahead_start (Source.before_empty s₀))) hrun
    obtain ⟨_, hbefore⟩ := below.exists_of_ahead hafter.below
    exact hbefore.sorted
  · rintro rfl hanswers z
    have hrec : Stage.Recorded (.initial (⟨s₀, #[]⟩ : Source.Logged σ)) := by
      intro z _ hhi
      exact absurd hhi (Nat.not_lt_zero z)
    refine (Stage.mem_numbers_after hseat Resampling.intact_empty hrec hanswers z).trans ?_
    exact or_iff_right (by simp [Resampling.State.initial, Source.Logged.numbers])

/-- Both rows are asked for at once, the second cannot be read, and it is asked for again. Then
both are asked for of a source that can be read. -/
theorem log_in_order_grey_pair :
    let img : Image := ⟨⟨1, 2⟩, .grey8, #[10, 200], by decide, by decide⟩
    let below : Chain Float (Source.Logged (Source.Failing Unit)) :=
      .base (img.source.failing 1).logged
    let both : Request × Bytes := (⟨⟨0, 0, 1, 2⟩, 1⟩, #[0, 0])
    let second : Request × Bytes := (⟨⟨0, 1, 1, 1⟩, 1⟩, #[0])
    let run (times : Nat) (asked : List (Request × Bytes)) : Source.Logged (Source.Failing Unit) :=
      ((Stage.nearestPair.source below.source).after (.initial ⟨⟨(), times, 0⟩, #[]⟩) asked).below
    (run 1 [both, second]).numbers.Pairwise (· < ·) ∧
      ∀ z, z ∈ (run 0 [both]).numbers ↔ z = 0 ∨ z = 1 := by
  intro img below both second run
  have hstage : below.Takes .nearestPair := takes_nearestPair rfl rfl
  have hasc : (below.put .nearestPair).Ascending := ⟨trivial, Stage.ascending_nearestPair⟩
  have hretried := log_in_order (.base _) hstage hasc rfl ⟨(), 1, 0⟩ [both, second] rfl
    (by decide +kernel)
  have hunfailing := log_in_order (.base _) hstage hasc rfl ⟨(), 0, 0⟩ [both] rfl
    (by decide +kernel)
  have htried : (Stage.nearestPair.source below.source).triedBy
      (.initial ⟨⟨(), 0, 0⟩, #[]⟩) [both] = [0, 1] := by decide +kernel
  refine ⟨hretried.1, fun z => ?_⟩
  refine (hunfailing.2 rfl ⟨fun _ _ => by decide +kernel, trivial⟩ z).trans ?_
  have hfirst : Stage.nearestPair.tables.vertical.Covers 0 z ↔ z = 0 := by
    change 0 ≤ z ∧ z < 0 + 1 ↔ z = 0
    omega
  have hsecond : Stage.nearestPair.tables.vertical.Covers 1 z ↔ z = 1 := by
    change 1 ≤ z ∧ z < 1 + 1 ↔ z = 1
    omega
  change (∃ y ∈ (Stage.nearestPair.source below.source).triedBy
    (.initial ⟨⟨(), 0, 0⟩, #[]⟩) [both], _) ↔ _
  rw [htried]
  simp [hfirst, hsecond]

end Chain

end Resampler

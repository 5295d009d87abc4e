import Resampler.Proofs.Stage.Keeping

/-!
What a load asks for.

A load asks its source for the rows that its window lacks and for nothing else. Which these are
depends on where the window stands and on how many rows it has, which may be fewer than it has
room for: a load that fails leaves it that way. If the window reaches `start`, what lies before
is dropped and the rows after its end are asked for; if it does not, all of it is dropped and
the rows from `start` on are (`Band.firstMissing`). Repeating a load, going on with
one that failed, moving on by some rows, leaping ahead and going back are all cases of
this. A record beside the source shows the requests one by one.
-/

namespace Resampler

namespace Source

variable {σ : Type}

/-- The record of asking for one whole row after the other, from row `y` on, with the answer to
each. -/
def inquiries (src : Source σ) (y : Nat) :
    List (Except Failure Bytes) → List (Request × Except Failure Bytes)
  | [] => []
  | answer :: answers => (src.line y, answer) :: src.inquiries (y + 1) answers

/-- The answers to the requests for the rows: the rows, and the failure that ended it if there was
one. -/
def Fetched.answers (fetch : Fetched σ) : List (Except Failure Bytes) :=
  fetch.rows.map .ok ++ match fetch.result with
    | .ok _ => []
    | .error e => [.error e]

theorem mem_inquiries {src : Source σ} {y i : Nat} {answers : List (Except Failure Bytes)}
    (hi : i < answers.length) : (src.line (y + i), answers[i]) ∈ src.inquiries y answers := by
  induction answers generalizing y i with
  | nil => exact absurd hi (Nat.not_lt_zero i)
  | cons answer answers ih =>
    cases i with
    | zero => exact List.mem_cons_self
    | succ i =>
      rw [show y + (i + 1) = y + 1 + i by omega]
      exact List.mem_cons_of_mem _ (ih (Nat.lt_of_succ_lt_succ hi))

theorem Fetched.answers_of_ok {fetch : Fetched σ} {u : Unit} (h : fetch.result = .ok u) :
    fetch.answers = fetch.rows.map .ok := by
  rw [answers, h, List.append_nil]

theorem Fetched.answers_of_error {fetch : Fetched σ} {e : Failure} (h : fetch.result = .error e) :
    fetch.answers = fetch.rows.map .ok ++ [.error e] := by
  rw [answers, h]

/-- Fetching a row is one request. -/
theorem record_fetchRow (src : Source σ) (y : Nat) (s : Recorded σ) :
    (src.recorded.fetchRow y s).state.record =
      (src.line y, (src.recorded.fetchRow y s).result) :: s.record := rfl

/-- Fetching rows is one request for each of them, in their order, up to the first that fails. -/
theorem record_fetchRows (src : Source σ) (y n : Nat) (s : Recorded σ) :
    (src.recorded.fetchRows y n s).state.record =
      (src.inquiries y (src.recorded.fetchRows y n s).answers).reverse ++ s.record := by
  induction n generalizing y s with
  | zero => rfl
  | succ n ih =>
    have hfirst := src.record_fetchRow y s
    cases hr : (src.recorded.fetchRow y s).result with
    | error e =>
      rw [hr] at hfirst
      rw [fetchRows_of_error hr]
      exact hfirst
    | ok row =>
      rw [hr] at hfirst
      have hrest := ih (y + 1) (src.recorded.fetchRow y s).state
      rw [fetchRows_of_ok hr]
      rw [hfirst] at hrest
      refine hrest.trans ?_
      simp only [Fetched.answers, List.map_cons, List.cons_append, inquiries, List.reverse_cons,
        List.append_assoc, List.nil_append]

/-- The source has answered the request for row `y` with these bytes, which are those of the image
if it gives the rows of one. -/
structure Answered (src : Source σ) (s₀ s : Recorded σ) (y : Nat) (raw : Bytes) : Prop where
  mem_record : (src.line y, .ok raw) ∈ s.record
  eq_row : ∀ rows, src.Steady s₀.inner rows → y < src.size.height.toNat → raw = rows y

theorem Answered.fetchRows {src : Source σ} {s₀ s : Recorded σ} {z : Nat} {raw : Bytes}
    (h : src.Answered s₀ s z raw) (y n : Nat) :
    src.Answered s₀ (src.recorded.fetchRows y n s).state z raw where
  mem_record := by
    rw [record_fetchRows]
    exact List.mem_append_right _ h.mem_record
  eq_row := h.eq_row

/-- The rows that are fetched have been answered. -/
theorem answered_fetchRows {src : Source σ} {s₀ s : Recorded σ} (h : src.recorded.Reaches s₀ s)
    {y n i : Nat} (hi : i < (src.recorded.fetchRows y n s).rows.length) :
    src.Answered s₀ (src.recorded.fetchRows y n s).state (y + i)
      (src.recorded.fetchRows y n s).rows[i] where
  mem_record := by
    have hlen : i < (src.recorded.fetchRows y n s).answers.length := by
      rw [Fetched.answers, List.length_append, List.length_map]
      omega
    have hmem : (src.line (y + i), (src.recorded.fetchRows y n s).answers[i]) ∈
        src.inquiries y (src.recorded.fetchRows y n s).answers := mem_inquiries hlen
    have hanswer : (src.recorded.fetchRows y n s).answers[i] =
        .ok (src.recorded.fetchRows y n s).rows[i] := by
      simp only [Fetched.answers]
      rw [List.getElem_append_left (by rwa [List.length_map]), List.getElem_map]
    rw [hanswer] at hmem
    rw [record_fetchRows]
    exact List.mem_append_left _ (List.mem_reverse.mpr hmem)
  eq_row rows hsteady hy := by
    obtain ⟨s', hreach, hrow⟩ := h.exists_fetchRow hi
    exact src.tracks_recorded.steady hsteady s' hreach _ hy _ hrow

end Source

/-- The first row that a window lacks when it is moved to `start`. -/
def Band.firstMissing (w : Band) (start : Nat) : Nat :=
  if w.start ≤ start ∧ start < w.stop then w.stop else start

theorem Band.stop_moveTo (w : Band) (start : Nat) :
    (w.moveTo start).stop = w.firstMissing start := by
  rw [stop, start_moveTo, firstMissing, moveTo]
  by_cases hkeep : w.start ≤ start ∧ start < w.stop
  · rw [if_pos hkeep, if_pos hkeep, Array.size_extract]
    unfold stop at hkeep ⊢
    omega
  · rw [if_neg hkeep, if_neg hkeep]
    rfl

namespace Resampling

variable {σ : Type} {plan : Resampling}

/-- The states that loads lead to, wherever these start and whether they fail or not. -/
inductive Loads (plan : Resampling) (below : Source σ) (s₀ : σ) : State σ → Prop
  | initial : Loads plan below s₀ (.initial s₀)
  | load {s : State σ} (h : Loads plan below s₀ s) (start : Nat) :
      Loads plan below s₀ (plan.load below start s).state

/-- After a load the window ends where the rows that it got do. -/
theorem stop_loaded_eq (plan : Resampling) (below : Source σ) (start : Nat) (s : State σ) :
    (plan.loaded below start s).window.stop =
      s.window.firstMissing start + (plan.fetchFor below start s).rows.length := by
  rw [stop_loaded, s.window.stop_moveTo start]

/-- What a load asks for, with the answers. -/
theorem record_loaded (plan : Resampling) (src : Source σ) (start : Nat)
    (s : State (Source.Recorded σ)) :
    (plan.loaded src.recorded start s).below.record =
      (src.inquiries (s.window.firstMissing start)
        (plan.fetchFor src.recorded start s).answers).reverse ++ s.below.record := by
  rw [← s.window.stop_moveTo start]
  exact src.record_fetchRows _ _ s.below

/-- A load that succeeds reports what it reused and what it fetched, unless that is nothing. -/
theorem events_load_of_ok {below : Source σ} {start : Nat} {s : State σ} {u : Unit}
    (h : (plan.load below start s).result = .ok u) :
    let reused := (s.window.moveTo start).lines.size
    let missing := plan.vertical.tapCount - reused
    (0 < missing → (plan.load below start s).events.getLast? =
      some (.windowLoad start reused missing)) ∧
    (missing = 0 → (plan.load below start s).events = []) := by
  intro reused missing
  have hload : plan.load below start s = ((plan.fetchLines below (start + reused) missing >>=
      fun _ => Pull.update (fun s => { s with fetched := s.fetched + missing }) >>= fun _ =>
        if 0 < missing then Pull.report (.windowLoad start reused missing) else pure ())
      { s with window := s.window.moveTo start } : Step (State σ) Unit) := rfl
  rw [hload] at h ⊢
  cases hr : (plan.fetchLines below (start + reused) missing
      { s with window := s.window.moveTo start }).result with
  | error e =>
    rw [Pull.bind_of_error hr] at h
    cases h
  | ok _ =>
    rw [Pull.bind_of_ok hr, Pull.update_bind]
    refine ⟨fun hpos => ?_, fun hzero => ?_⟩
    · rw [if_pos hpos]
      exact List.getLast?_concat
    · rw [hzero, if_neg (lt_irrefl 0)]
      rfl

/-- What is known of the states that loads lead to: each line of the window was made of bytes that
the source has answered with. -/
structure Traced (plan : Resampling) (src : Source σ) (s₀ : Source.Recorded σ)
    (s : State (Source.Recorded σ)) : Prop where
  intact : plan.Intact s.window
  reaches : src.recorded.Reaches s₀ s.below
  made : plan.MadeOf (src.Answered s₀ s.below) s.window

section Seated

variable {src : Source σ} {s₀ : Source.Recorded σ} {s : State (Source.Recorded σ)}
  (hseat : plan.Seated src.recorded)
include hseat

theorem Traced.loaded (h : plan.Traced src s₀ s) (start : Nat) :
    plan.Traced src s₀ (plan.loaded src.recorded start s) where
  intact := hseat.intact_loaded start h.intact
  reaches := h.reaches.fetchRows _ _
  made := (h.made.moveTo start).extend (fun _ _ _ hold => hold.fetchRows _ _) fun _ hi =>
    Source.answered_fetchRows h.reaches hi

theorem Loads.traced (h : plan.Loads src.recorded s₀ s) : plan.Traced src s₀ s := by
  induction h with
  | initial => exact ⟨intact_empty, src.recorded.reaches_self s₀, madeOf_empty⟩
  | load _ start ih =>
    rw [(hseat.load_eq start _).2]
    exact ih.loaded hseat start

end Seated

/-- A load, from any state that loads lead to, complete or not, and at any start. It asks for
the rows that the window lacks, one whole row at a time from the first of them on, and for no
others, and it stops where one fails. Then the window holds the rows that it kept and those that
it got, each made of what the source answered for it. If no row failed, the window is complete,
and the numbers of rows reused and fetched, which are counted and reported, add up to its size. -/
theorem load_fetches_missing {src : Source σ} (hseat : plan.Seated src) {s₀ : Source.Recorded σ}
    {s : State (Source.Recorded σ)} (hs : plan.Loads src.recorded s₀ s) (start : Nat)
    {step : Step (State (Source.Recorded σ)) Unit}
    (hstep : step = plan.load src.recorded start s) :
    ∃ raws : List Bytes,
      step.state.window.start = start ∧
      step.state.window.stop = s.window.firstMissing start + raws.length ∧
      plan.MadeOf (src.Answered s₀ step.state.below) step.state.window ∧
      (∀ u, step.result = .ok u →
        step.state.below.record =
          (src.inquiries (s.window.firstMissing start) (raws.map .ok)).reverse ++ s.below.record ∧
        step.state.window.stop = start + plan.vertical.tapCount ∧
        step.state.fetched = s.fetched + raws.length ∧
        ∃ reused, start + reused = s.window.firstMissing start ∧
          reused + raws.length = plan.vertical.tapCount ∧
          (raws ≠ [] → step.events.getLast? = some (.windowLoad start reused raws.length)) ∧
          (raws = [] → step.events = [])) ∧
      ∀ e, step.result = .error e →
        step.state.below.record =
          (src.inquiries (s.window.firstMissing start) (raws.map .ok ++ [.error e])).reverse ++
            s.below.record ∧
        step.state.window.stop < start + plan.vertical.tapCount ∧
        step.state.fetched = s.fetched := by
  have hrecorded : plan.Seated src.recorded := hseat.congr rfl rfl
  have htraced := hs.traced hrecorded
  have hsize := (htraced.intact.moveTo start).size_le
  obtain ⟨hresult, hstate⟩ := hrecorded.load_eq start s
  have hreused : start + (s.window.moveTo start).lines.size = s.window.firstMissing start :=
    s.window.stop_moveTo start
  have hstop := plan.stop_loaded_eq src.recorded start s
  have hrecord := plan.record_loaded src start s
  subst hstep
  rw [hstate]
  refine ⟨(plan.fetchFor src.recorded start s).rows, start_loaded start s, hstop,
    (htraced.loaded hrecorded start).made, fun u hok => ?_, fun e herror => ?_⟩
  case refine_1 =>
    have hr : (plan.fetchFor src.recorded start s).result = .ok u := hresult.symm.trans hok
    have hlen : (plan.fetchFor src.recorded start s).rows.length =
        plan.vertical.tapCount - (s.window.moveTo start).lines.size :=
      Source.length_fetchRows_of_ok hr
    obtain ⟨hreport, hsilent⟩ := events_load_of_ok hok
    rw [← hlen] at hreport hsilent
    rw [Source.Fetched.answers_of_ok hr] at hrecord
    refine ⟨hrecord, ?_, ?_, _, hreused, ?_, fun hne => ?_, fun hnil => ?_⟩
    · omega
    · simp only [loaded, hr, hlen]
    · omega
    · exact hreport (List.length_pos_iff.mpr hne)
    · exact hsilent (congrArg List.length hnil)
  case refine_2 =>
    have hr : (plan.fetchFor src.recorded start s).result = .error e := hresult.symm.trans herror
    have hlen : (plan.fetchFor src.recorded start s).rows.length <
        plan.vertical.tapCount - (s.window.moveTo start).lines.size :=
      Source.length_fetchRows_lt_of_error hr
    rw [Source.Fetched.answers_of_error hr] at hrecord
    refine ⟨hrecord, ?_, ?_⟩
    · omega
    · simp only [loaded, hr]

end Resampling

/-- The states that requests to a stage lead to, some of which may have failed, are states that
loads lead to. -/
theorem Stage.Seated.loads_after {α σ : Type} {stage : Stage α} {below : Source σ}
    (hseat : stage.Seated below) (s₀ : σ) (asked : List (Request × Bytes)) :
    stage.tables.Loads below s₀ ((stage.source below).after (.initial s₀) asked) := by
  refine (hseat.after_rule
    (P := fun s => stage.tables.Intact s.window ∧ stage.tables.Loads below s₀ s)
    (fun _ h => h.1) (fun s h y _ => ⟨hseat.tables.intact_loaded _ h.1, ?_⟩) asked
    ⟨Resampling.intact_empty, .initial⟩).2
  rw [Stage.loaded, ← (hseat.tables.load_eq _ s).2]
  exact h.2.load _

namespace Resampling

/-- The means of the first two and of the last two of three rows. -/
def slidingPair : Resampling where
  sourceSize := ⟨1, 3⟩
  format := .grey8
  kernel := ⟨1, .eight, .none⟩
  horizontal := ⟨1, 1, 1, #[⟨0, #[32768]⟩]⟩
  vertical := ⟨3, 2, 1, #[⟨0, #[16384, 16384]⟩, ⟨1, #[16384, 16384]⟩]⟩
  keepsSource := false

/-- A request fails at row 1, which leaves a window with row 0. The load of the same two rows then
asks for row 1 only. -/
theorem load_fetches_missing_slidingPair :
    let img : Image := ⟨⟨1, 3⟩, .grey8, #[10, 200, 90], by decide, by decide⟩
    let src : Source (Source.Failing Unit) := img.source.failing 1
    let s := (slidingPair.source src.recorded).after (.initial ⟨⟨(), 1, 0⟩, []⟩)
      [(⟨⟨0, 0, 1, 1⟩, 1⟩, #[0])]
    let step := slidingPair.load src.recorded 0 s
    s.window.stop = 1 ∧ s.below.record.length = 2 ∧
      ∃ raw, step.state.below.record = (src.line 1, .ok raw) :: s.below.record ∧
        step.events.getLast? = some (.windowLoad 0 1 1) := by
  intro img src s step
  have hfits : slidingPair.Fits :=
    ⟨rfl, ⟨by decide, by decide⟩, ⟨by decide, by decide⟩, rfl, rfl, rfl, rfl⟩
  have hseat : slidingPair.Seated src := ⟨hfits, rfl, rfl⟩
  have hstage : (Stage.resampling slidingPair : Stage Unit).Seated src.recorded :=
    hseat.congr rfl rfl
  have hreached : slidingPair.Loads src.recorded ⟨⟨(), 1, 0⟩, []⟩ s := hstage.loads_after _ _
  have hpartial : s.window.firstMissing 0 = 1 := by decide +kernel
  have hok : step.result = .ok () := by decide +kernel
  have htaps : slidingPair.vertical.tapCount = 2 := rfl
  obtain ⟨raws, -, -, -, hcomplete, -⟩ := load_fetches_missing hseat hreached 0 (rfl : step = _)
  obtain ⟨hrecord, -, -, reused, hreused, hsum, hreport, -⟩ := hcomplete () hok
  rw [hpartial] at hrecord hreused
  rw [htaps] at hsum
  obtain ⟨raw, rfl⟩ : ∃ raw, raws = [raw] := List.length_eq_one_iff.mp (by omega)
  obtain rfl : reused = 1 := by omega
  exact ⟨by decide +kernel, by decide +kernel, raw, hrecord, hreport (List.cons_ne_nil _ _)⟩

end Resampling

end Resampler

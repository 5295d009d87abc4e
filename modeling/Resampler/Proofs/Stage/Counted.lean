import Resampler.Proofs.Stage.Interrupted
import Resampler.Proofs.Stage.Ordered

/-!
What the count of fetched rows leaves out.

A stage counts the rows of a load when the load is complete. The rows that a load got before
it failed stay in the window, where the next load finds them and so does not fetch them
again: nobody ever counts them. `Stage.lost` is the number of these rows for one request, and
`Stage.lostBy` for a run. With them the books balance at every point of every run
(`fetched_add_lost`), and without a failure there is nothing to add.
-/

namespace Resampler

namespace Source

variable {σ : Type} (src : Source σ)

theorem fetches_fetchRow_logged (y n : Nat) :
    (src.logged.fetchRow y).Ensures (fun s => s.fetches = n) (fun _ s => s.fetches = n + 1)
      fun _ s => s.fetches = n := by
  refine Pull.Ensures.of_state fun s hs => ?_
  refine (fetchRow_logged (src.fetchRow y).ensures_true s.rows).weaken ?_ (fun _ s' h => ?_)
    fun _ s' h => ?_
  · rintro _ rfl
    exact ⟨trivial, rfl⟩
  · rw [Logged.fetches, h.2, Array.size_push]
    exact congrArg (· + 1) hs
  · rw [Logged.fetches, h.2]
    exact hs

/-- The log grows by the rows that were fetched, those before a failure included. -/
theorem fetches_fetchRows_logged (y n : Nat) (s : Logged σ) :
    (src.logged.fetchRows y n s).state.fetches =
      s.fetches + (src.logged.fetchRows y n s).rows.length := by
  have hstep (z : Nat) (hlo : y ≤ z) (_ : z < y + n) : (src.logged.fetchRow z).Ensures
      (fun t => t.fetches = s.fetches + (z - y)) (fun _ t => t.fetches = s.fetches + (z + 1 - y))
      fun _ t => t.fetches = s.fetches + (z - y) := by
    rw [show z + 1 - y = z - y + 1 by omega]
    exact src.fetches_fetchRow_logged z _
  have hrule := fetchRows_rule _ (fun z _ (t : Logged σ) => t.fetches = s.fetches + (z - y)) hstep
    (show s.fetches = s.fetches + (y - y) by omega)
  split at hrule
  · rw [hrule.2, hrule.1, Nat.add_sub_cancel_left]
  · rw [hrule.2, Nat.add_sub_cancel_left]

end Source

namespace Stage

variable {α σ : Type} {stage : Stage α} {below : Source σ}

/-- The rows that were fetched for output row `y` and are not counted: those that a load got
before it failed. -/
def abandoned (stage : Stage α) (below : Source σ) (y : Nat) (s : Resampling.State σ) : Nat :=
  match (stage.fetchFor below y s).result with
  | .ok _ => 0
  | .error _ => (stage.fetchFor below y s).rows.length

/-- The rows that are not counted among those fetched for the first `k` rows of a request. -/
def lostBefore (stage : Stage α) (below : Source σ) (q : Request) (buffer : Bytes)
    (s : Resampling.State σ) : Nat → Nat
  | 0 => 0
  | k + 1 =>
    let made := stage.lay below q k buffer s
    stage.lostBefore below q buffer s k +
      match made.result with
      | .ok _ => stage.abandoned below (q.region.y.toNat + k) made.state
      | .error _ => 0

/-- The rows that are not counted among those fetched for a request. -/
def lost (stage : Stage α) (below : Source σ) (q : Request) (buffer : Bytes)
    (s : Resampling.State σ) : Nat :=
  match q.check stage.tables.size stage.tables.format buffer.size with
  | .error _ => 0
  | .ok _ => stage.lostBefore below q buffer s q.region.height.toNat

/-- The rows that are not counted among those fetched for the requests of a run. -/
def lostBy (stage : Stage α) (below : Source σ) (s : Resampling.State σ) :
    List (Request × Bytes) → Nat
  | [] => 0
  | a :: asked =>
    stage.lost below a.1 a.2 s +
      stage.lostBy below ((stage.source below).copy a.1 a.2 s).state asked

section Failures

variable (hseat : stage.Seated below) {q : Request} {buffer : Bytes} {n : Nat}
  (hq : q.check stage.tables.size stage.tables.format buffer.size = .ok n)
  {s : Resampling.State σ} (hw : stage.tables.Intact s.window)
include hseat hq hw

theorem lostBefore_of_ok {k : Nat} (hk : k ≤ q.region.height.toNat) {u : Unit}
    (hok : (stage.lay below q k buffer s).result = .ok u) :
    stage.lostBefore below q buffer s k = 0 := by
  induction k with
  | zero => rfl
  | succ k ih =>
    have hk' := Nat.le_of_succ_le hk
    have hmade := lay_ok_of_le (Nat.le_succ k) hok
    obtain ⟨-, hresult⟩ := hseat.lay_succ hq hk rfl hmade (hseat.intact_lay hq hk' hw)
    have hload : stage.abandoned below (q.region.y.toNat + k)
        (stage.lay below q k buffer s).state = 0 := by
      unfold abandoned
      split at hresult
      case h_1 =>
        rw [hresult.1] at hok
        cases hok
      case h_2 hfetch => rw [hfetch]
    simp only [lostBefore, hmade]
    rw [ih hk' hmade, hload]

/-- A request that is interrupted loses the rows that were fetched for the row it ends at. -/
theorem lost_of_interrupts {k : Nat} {e : Failure} (h : stage.Interrupts below q buffer s k e) :
    stage.lost below q buffer s = (stage.fetchFor below (q.region.y.toNat + k)
      ((stage.source below).copy (q.top k) buffer s).state).rows.length := by
  have hk := Nat.le_of_lt h.lt
  obtain ⟨hmade, hfailed⟩ := h.lay hq
  rw [copy_top hq hk]
  simp only [lost, hq]
  -- no row after the one that failed adds anything
  suffices ∀ m, k < m → stage.lostBefore below q buffer s m = (stage.fetchFor below
      (q.region.y.toNat + k) (stage.lay below q k buffer s).state).rows.length from
    this _ h.lt
  intro m hm
  induction m, hm using Nat.le_induction with
  | base =>
    simp only [lostBefore, hmade]
    rw [lostBefore_of_ok hseat hq hw hk hmade, Nat.zero_add, abandoned, hfailed]
  | succ m hm ih =>
    simp only [lostBefore, (hseat.lay_of_interrupts hq hw h hm).1]
    rw [ih, Nat.add_zero]

end Failures

/-! The books of a stage whose source keeps a log. -/

section Logged

variable {src : Source σ} {s : Resampling.State (Source.Logged σ)} {m : Nat}

/-- The log has `m` rows more than the stage has counted. -/
def Owes (m : Nat) (s : Resampling.State (Source.Logged σ)) : Prop :=
  s.fetched + m = s.below.fetches

/-- The rows of a load are counted unless it fails. -/
theorem Owes.loaded (h : Owes m s) (y : Nat) :
    Owes (m + stage.abandoned src.logged y s) (stage.loaded src.logged y s) := by
  have hlog := src.fetches_fetchRows_logged
    (s.window.moveTo (stage.tables.vertical.window y).start).stop
    (stage.tables.vertical.tapCount -
      (s.window.moveTo (stage.tables.vertical.window y).start).lines.size) s.below
  have hlength (u : Unit) (hok : (stage.fetchFor src.logged y s).result = .ok u) :=
    Source.length_fetchRows_of_ok hok
  unfold Owes at h ⊢
  simp only [abandoned, Stage.loaded, Resampling.loaded] at hlength ⊢
  simp only [fetchFor, Resampling.fetchFor] at hlength ⊢
  generalize src.logged.fetchRows _ _ s.below = fetch at hlog hlength ⊢
  cases hr : fetch.result with
  | ok u =>
    have := hlength u hr
    simp only
    omega
  | error e =>
    simp only
    omega

variable (hseat : stage.Seated src.logged)
include hseat

theorem Owes.lay {q : Request} {buffer : Bytes} {n : Nat}
    (hq : q.check stage.tables.size stage.tables.format buffer.size = .ok n)
    (hw : stage.tables.Intact s.window) (h : Owes m s) {k : Nat}
    (hk : k ≤ q.region.height.toNat) :
    Owes (m + stage.lostBefore src.logged q buffer s k)
      (stage.lay src.logged q k buffer s).state := by
  induction k with
  | zero => exact h
  | succ k ih =>
    have hk' := Nat.le_of_succ_le hk
    have hbefore := ih hk'
    cases hr : (stage.lay src.logged q k buffer s).result with
    | error e =>
      simp only [lostBefore, hr]
      rw [lay_succ_of_error hr]
      exact hbefore
    | ok _ =>
      simp only [lostBefore, hr]
      rw [(hseat.lay_succ hq hk rfl hr (hseat.intact_lay hq hk' hw)).1, ← Nat.add_assoc]
      exact hbefore.loaded _

theorem Owes.copy (hw : stage.tables.Intact s.window) (h : Owes m s) (q : Request)
    (buffer : Bytes) : Owes (m + stage.lost src.logged q buffer s)
      ((stage.source src.logged).copy q buffer s).state := by
  cases hq : q.check stage.tables.size stage.tables.format buffer.size with
  | error e =>
    simp only [lost, hq]
    rw [copy_of_check_error hq]
    exact h
  | ok n =>
    simp only [lost, hq]
    rw [copy_eq hq]
    exact h.lay hseat hq hw le_rfl

/-- What a run has lost is what the stage owes after it. -/
theorem Owes.after (hw : stage.tables.Intact s.window) (h : Owes m s)
    (asked : List (Request × Bytes)) : Owes (m + stage.lostBy src.logged s asked)
      ((stage.source src.logged).after s asked) := by
  induction asked generalizing s m with
  | nil => exact h
  | cons a asked ih =>
    rw [lostBy, ← Nat.add_assoc]
    exact ih (hseat.intact_copy _ _ hw) (h.copy hseat hw a.1 a.2)

omit hseat in
theorem lostBy_of_answers {below : Source σ} (hseat : stage.Seated below)
    {s : Resampling.State σ} (hw : stage.tables.Intact s.window) {asked : List (Request × Bytes)}
    (hanswers : (stage.source below).Answers s asked) : stage.lostBy below s asked = 0 := by
  induction asked generalizing s with
  | nil => rfl
  | cons a asked ih =>
    obtain ⟨hfirst, hrest⟩ := hanswers
    rw [size_source, format_source] at hfirst
    rw [lostBy, ih (hseat.intact_copy _ _ hw) hrest, Nat.add_zero]
    cases hq : a.1.check stage.tables.size stage.tables.format a.2.size with
    | error e => simp only [lost, hq]
    | ok n =>
      have hok := hfirst n hq
      rw [copy_eq hq] at hok
      simp only [lost, hq]
      exact lostBefore_of_ok hseat hq hw le_rfl hok

end Logged

end Stage

namespace Chain

variable {α σ : Type} [Analytic α] {src : Source σ} {stage : Stage α}

/-- At every point of every run over any source, the rows that the stage has counted and those
that its interrupted requests have lost are all the rows that the source gave. A run without
failures loses nothing, and an interrupted request loses just the rows that were fetched for the
output row at which it ended. -/
theorem fetched_add_lost (hstage : (base src.logged : Chain α (Source.Logged σ)).Takes stage)
    (s₀ : σ) (asked : List (Request × Bytes)) {s : Resampling.State (Source.Logged σ)}
    (hs : s = (stage.source src.logged).after (.initial ⟨s₀, #[]⟩) asked) :
    s.fetched + stage.lostBy src.logged (.initial ⟨s₀, #[]⟩) asked = s.below.fetches ∧
    ((stage.source src.logged).Answers (.initial ⟨s₀, #[]⟩) asked →
      s.fetched = s.below.fetches) ∧
    ∀ q buffer n, q.check stage.tables.size stage.tables.format buffer.size = .ok n →
      ∀ k e, stage.Interrupts src.logged q buffer s k e →
        stage.lost src.logged q buffer s = (stage.fetchFor src.logged (q.region.y.toNat + k)
          ((stage.source src.logged).copy (q.top k) buffer s).state).rows.length := by
  have hseat : stage.Seated src.logged := hstage.seated
  have hempty : Stage.Owes 0 (.initial (⟨s₀, #[]⟩ : Source.Logged σ)) := rfl
  have hbooks := hempty.after hseat Resampling.intact_empty asked
  rw [Nat.zero_add, ← hs] at hbooks
  refine ⟨hbooks, fun hanswers => ?_, fun q buffer n hq k e h => ?_⟩
  · have hnone := Stage.lostBy_of_answers hseat Resampling.intact_empty hanswers
    rwa [hnone, Stage.Owes, Nat.add_zero] at hbooks
  · refine Stage.lost_of_interrupts hseat hq ?_ h
    rw [hs]
    exact hseat.intact_after asked Resampling.intact_empty

/-- The mean of two pixels is asked for twice. The second of them cannot be read at first, and the
row fetched before it is never counted. -/
theorem fetched_add_lost_grey_pair :
    let img : Image := ⟨⟨1, 2⟩, .grey8, #[10, 200], by decide, by decide⟩
    let src : Source (Source.Failing Unit) := img.source.failing 1
    let mean : Request × Bytes := (⟨⟨0, 0, 1, 1⟩, 1⟩, #[0])
    let s := (Stage.averagePair.source src.logged).after (.initial ⟨⟨(), 1, 0⟩, #[]⟩) [mean, mean]
    s.fetched + 1 = s.below.fetches ∧ s.below.fetches = 2 := by
  intro img src mean s
  have hstage : (base src.logged : Chain Float _).Takes .averagePair := takes_averagePair rfl rfl
  obtain ⟨hbooks, -, -⟩ := fetched_add_lost hstage ⟨(), 1, 0⟩ [mean, mean] (rfl : s = _)
  have hlost : Stage.averagePair.lostBy src.logged (.initial ⟨⟨(), 1, 0⟩, #[]⟩) [mean, mean] = 1 := by
    decide +kernel
  rw [hlost] at hbooks
  exact ⟨hbooks, by decide +kernel⟩

/-- After the first of these requests a row has been fetched and none has been counted. -/
theorem fetched_ne_fetches_grey_pair :
    let img : Image := ⟨⟨1, 2⟩, .grey8, #[10, 200], by decide, by decide⟩
    let src : Source (Source.Failing Unit) := img.source.failing 1
    let s := (Stage.averagePair.source src.logged).after (.initial ⟨⟨(), 1, 0⟩, #[]⟩)
      [(⟨⟨0, 0, 1, 1⟩, 1⟩, #[0])]
    (base src.logged : Chain Float _).Takes .averagePair ∧ s.fetched = 0 ∧
      s.below.fetches = 1 := by
  intro img src s
  exact ⟨takes_averagePair rfl rfl, by decide +kernel, by decide +kernel⟩

end Chain

end Resampler

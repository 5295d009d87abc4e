import Resampler.Proofs.Stage.Memory

/-!
Requests stay in bounds.

Whatever a chain of stages that was built over an image in memory is asked, it answers, with nothing
but the error of a malformed request. `Chain.Touches` names all that an accepted request reaches, in the
state that it is asked in: its own rows, the rows of the stages, and what the rows that are
fetched from below reach in their turn. The states are those that requests lead to,
and in all of them the windows lie in the sources below.
-/

namespace Resampler

namespace Stage

variable {α σ : Type} {stage : Stage α} {below : Source σ} {s₀ : σ} {s : Resampling.State σ}

/-- The window lies in the source, which is in a state that requests have led it to. -/
structure Within (stage : Stage α) (below : Source σ) (s₀ : σ) (s : Resampling.State σ) : Prop where
  window : stage.tables.Intact s.window
  stop_le : s.window.stop ≤ below.size.height.toNat
  below : below.Reaches s₀ s.below

theorem within_initial (stage : Stage α) (below : Source σ) (s₀ : σ) :
    stage.Within below s₀ (.initial s₀) where
  window := Resampling.intact_empty
  stop_le := Nat.zero_le _
  below := below.reaches_self s₀

section Seated

variable (hseat : stage.Seated below)
include hseat

theorem Within.loaded (h : stage.Within below s₀ s) {y : Nat}
    (hy : y < stage.tables.size.height.toNat) :
    stage.Within below s₀ (stage.loaded below y s) := by
  have hinside := hseat.window_le hy
  have hintact : stage.tables.Intact (stage.loaded below y s).window :=
    hseat.tables.intact_loaded _ h.window
  refine ⟨hintact, ?_, h.below.fetchRows _ _⟩
  have hsize := hintact.size_le
  rw [Stage.loaded] at hsize ⊢
  rw [Band.stop, Resampling.start_loaded]
  omega

theorem Within.lay (h : stage.Within below s₀ s) {q : Request} {buffer : Bytes} {n : Nat}
    (hq : q.check stage.tables.size stage.tables.format buffer.size = .ok n) {k : Nat}
    (hk : k ≤ q.region.height.toNat) :
    stage.Within below s₀ (stage.lay below q k buffer s).state :=
  hseat.lay_rule hq (fun _ h => h.window) (fun _ h _ hy => h.loaded hseat hy) hk h

theorem within_of_reaches (h : (stage.source below).Reaches (.initial s₀) s) :
    stage.Within below s₀ s := by
  obtain ⟨asked, rfl⟩ := h
  exact hseat.after_rule (fun _ h => h.window) (fun _ h _ hy => h.loaded hseat hy) asked
    (within_initial stage below s₀)

end Seated

/-- What is reached to make the pixels from column `x` on of output row `y`. -/
def TouchesRow : Stage α → Band → Nat → Nat → Nat → Span → Prop
  | resampling plan => plan.Touches
  | sharpening plan => plan.Touches

theorem TouchesRow.inBounds (hseat : stage.Seated below) (hheld : stage.tables.Held)
    (h : stage.Within below s₀ s) {y x : Nat} {width : UInt32} {span : Span}
    (hy : y < stage.tables.size.height.toNat)
    (hx : x + width.toNat ≤ stage.tables.size.width.toNat)
    (htouch : stage.TouchesRow s.window y x width.toNat span) : span.InBounds := by
  have hstop := h.stop_le
  rw [hseat.tables.size_eq] at hstop
  cases stage with
  | resampling plan =>
    exact Resampling.Touches.inBounds hseat.tables.fits hheld h.window hstop hy hx htouch
  | sharpening plan =>
    exact Sharpening.Touches.inBounds hseat hheld h.window hstop hy hx htouch

/-- The window that row `y` needs, before anything is fetched for it. -/
def moved (stage : Stage α) (s : Resampling.State σ) (y : Nat) : Band :=
  s.window.moveTo (stage.tables.vertical.window y).start

/-- What a request reaches: in the image and the buffer, for each of its rows in the state
that the rows before it have left, and in the source below, of which `lines` tells what a request
reaches there, for each row that is fetched. -/
inductive Touches (stage : Stage α) (below : Source σ)
    (lines : σ → Request → Bytes → Span → Prop) (s : Resampling.State σ) (q : Request)
    (buffer : Bytes) : Span → Prop
  | request {span : Span}
      (h : q.Touches stage.tables.size stage.tables.format buffer.size span) :
      Touches stage below lines s q buffer span
  | row {r : Nat} {span : Span} (hr : r < q.region.height.toNat)
      (h : stage.TouchesRow (stage.lay below q r buffer s).state.window (q.region.y.toNat + r)
        q.region.x.toNat q.region.width.toNat span) :
      Touches stage below lines s q buffer span
  | fetch {r k : Nat} {span : Span} {before : Resampling.State σ} {w : Band}
      (hr : r < q.region.height.toNat) (hmade : before = (stage.lay below q r buffer s).state)
      (hw : w = stage.moved before (q.region.y.toNat + r))
      (hk : k < stage.tables.vertical.tapCount - w.lines.size)
      (h : lines (below.fetchRows w.stop k before.below).state
        ⟨Region.line below.size.width (w.stop + k), below.format.rowBytes below.size.width⟩
        (Array.replicate (below.format.rowBytes below.size.width) 0) span) :
      Touches stage below lines s q buffer span

/-- A stage stays in bounds over a source that does. -/
theorem Touches.inBounds {lines : σ → Request → Bytes → Span → Prop} (hseat : stage.Seated below)
    (hheld : stage.tables.Held)
    (hlines : ∀ s, below.Reaches s₀ s → ∀ q buffer n,
      q.check below.size below.format buffer.size = .ok n → ∀ span, lines s q buffer span →
        span.InBounds)
    (hs : (stage.source below).Reaches (.initial s₀) s) {q : Request} {buffer : Bytes} {n : Nat}
    (hq : q.check stage.tables.size stage.tables.format buffer.size = .ok n) {span : Span}
    (h : stage.Touches below lines s q buffer span) : span.InBounds := by
  have hbefore {r : Nat} (hr : r < q.region.height.toNat) :
      stage.Within below s₀ (stage.lay below q r buffer s).state :=
    (within_of_reaches hseat hs).lay hseat hq (Nat.le_of_lt hr)
  cases h with
  | request h => exact h.inBounds hq
  | row hr h =>
    obtain ⟨hlow, hright, -⟩ := Request.bounds_of_check hq hr
    exact h.inBounds hseat hheld (hbefore hr) hlow hright
  | @fetch r k _ before w hr hmade hw hk h =>
    subst hmade
    obtain ⟨hlow, -⟩ := Request.bounds_of_check hq hr
    have hinside := hseat.window_le hlow
    have hstart : w.start = (stage.tables.vertical.window (q.region.y.toNat + r)).start :=
      congrArg Band.start hw
    -- the row that is fetched is one of the window, so the source has it
    have hrow : w.stop + k < below.size.height.toNat := by
      rw [Band.stop, hstart]
      omega
    have hline := Source.check_line below.format hrow
      (Array.size_replicate (v := (0 : UInt8)))
    exact hlines _ ((hbefore hr).below.fetchRows _ _) _ _ _ hline _ h

end Stage

namespace Chain

variable {α σ : Type}

/-- What a request reaches that a chain over a view is asked in state `s`. -/
def Touches (v : View) : (c : Chain α σ) → c.State → Request → Bytes → Span → Prop
  | base src, _, q, buffer, span => q.Touches src.size src.format buffer.size span ∨
      ∃ r < q.region.height.toNat, span = v.place q.region (q.region.y.toNat + r)
  | resample below plan, s, q, buffer, span =>
      (Stage.resampling plan : Stage α).Touches below.source (below.Touches v) s q buffer span
  | sharpen below plan, s, q, buffer, span =>
      (Stage.sharpening plan).Touches below.source (below.Touches v) s q buffer span

/-- All that an accepted request reaches lies where it should. -/
theorem Built.inBounds [Analytic α] {c : Chain α σ} (hc : c.Built) {v : View} (hv : v.InMemory)
    (hbottom : c.bottom = v.source) (hheld : c.Held) {s₀ : σ} {s : c.State}
    (hs : c.source.Reaches (c.start s₀) s) {q : Request} {buffer : Bytes} {n : Nat}
    (hq : q.check c.size c.format buffer.size = .ok n) {span : Span}
    (h : c.Touches v s q buffer span) : span.InBounds := by
  induction hc generalizing q buffer n span with
  | base src =>
    rcases h with h | ⟨r, hr, rfl⟩
    · exact h.inBounds hq
    · obtain ⟨hlow, hright, -⟩ := Request.bounds_of_check hq hr
      have hsize : src.size = v.size := congrArg Source.size hbottom
      apply hv.inBounds_place
      · rw [← hsize]
        exact hright
      · rw [← hsize]
        exact hlow
  | resample _ hplan ih =>
    exact Stage.Touches.inBounds (Takes.resampling hplan).seated hheld.2
      (fun _ hbelow _ _ _ hline _ => ih hbottom hheld.1 hbelow hline) hs hq h
  | sharpen _ hplan ih =>
    exact Stage.Touches.inBounds (Takes.sharpening hplan).seated hheld.2
      (fun _ hbelow _ _ _ hline _ => ih hbottom hheld.1 hbelow hline) hs hq h

end Chain

end Resampler

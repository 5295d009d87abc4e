import Resampler.Proofs.Source.Fetching

/-!
One machine seen through another.

A machine that knows more than another, or keeps more, may answer just as that one does.
What it adds can then be left out of sight: a function of its states shows the
states of the other machine, and `Tracks` says that every step looks like the step of
the other, with the same result and the same events. Actions that are put together
in the same way track each other if their parts do, and so do sources that make their
rows by such actions, over any number of requests. What is known of the one source then
holds of the other.
-/

namespace Resampler

variable {σ τ β γ : Type} {f : σ → τ}

/-- The step with the state that `f` shows. -/
def Step.through (f : σ → τ) (step : Step σ β) : Step τ β :=
  ⟨step.result, f step.state, step.events⟩

/-- The reply with the state that `f` shows. -/
def Reply.through (f : σ → τ) (reply : Reply σ) : Reply τ :=
  ⟨reply.result, reply.buffer, f reply.state, reply.events⟩

namespace Pull

/-- Seen through `f`, the first action is the second. -/
def Tracks (f : σ → τ) (m : Pull σ β) (m' : Pull τ β) : Prop :=
  ∀ s, m' (f s) = (m s).through f

theorem tracks_pure (b : β) : Tracks f (pure b) (pure b) := fun _ => rfl

theorem tracks_lookup (b : Option β) : Tracks f (lookup b) (lookup b) := by
  intro s
  cases b <;> rfl

theorem tracks_report (e : Event) : Tracks f (report e) (report e) := fun _ => rfl

theorem tracks_read {g : σ → β} {g' : τ → β} (h : ∀ s, g' (f s) = g s) :
    Tracks f (read g) (read g') := by
  intro s
  simp only [read, h]
  rfl

theorem tracks_update {g : σ → σ} {g' : τ → τ} (h : ∀ s, g' (f s) = f (g s)) :
    Tracks f (update g) (update g') := by
  intro s
  simp only [update, h]
  rfl

theorem Tracks.bind {m : Pull σ β} {m' : Pull τ β} {k : β → Pull σ γ} {k' : β → Pull τ γ}
    (hm : Tracks f m m') (hk : ∀ b, Tracks f (k b) (k' b)) : Tracks f (m >>= k) (m' >>= k') := by
  intro s
  have hfirst : (m' (f s)).result = (m s).result := congrArg Step.result (hm s)
  cases hr : (m s).result with
  | error e =>
    rw [hr] at hfirst
    rw [bind_of_error hr, bind_of_error hfirst, hm s]
    rfl
  | ok b =>
    rw [hr] at hfirst
    rw [bind_of_ok hr, bind_of_ok hfirst, hm s]
    simp only [Step.through, hk b (m s).state]

end Pull

namespace Source

/-- Seen through `f`, the first source is the second. -/
structure Tracks (f : σ → τ) (src : Source σ) (src' : Source τ) : Prop where
  size_eq : src'.size = src.size
  format_eq : src'.format = src.format
  copy_eq : ∀ q buffer s, src'.copy q buffer (f s) = (src.copy q buffer s).through f

theorem layRows_through {produce : Nat → Pull σ Bytes} {produce' : Nat → Pull τ Bytes}
    (h : ∀ r, Pull.Tracks f (produce r) (produce' r)) (stride r n : Nat) (buffer : Bytes) (s : σ) :
    layRows produce' stride r n buffer (f s) =
      (layRows produce stride r n buffer s).through f := by
  induction n generalizing r buffer s with
  | zero => rfl
  | succ n ih =>
    simp only [layRows, h r s, Step.through]
    cases (produce r s).result with
    | error e => rfl
    | ok row =>
      simp only
      cases buffer.blit? (r * stride) row with
      | none => rfl
      | some between =>
        simp only [ih]
        rfl

/-- Sources track each other that check the same and make their rows by actions that do. -/
theorem tracks_ofRows {size : Size} {format : PixelFormat} {announce : Region → List Event}
    {produce : Region → Nat → Pull σ Bytes} {produce' : Region → Nat → Pull τ Bytes}
    (h : ∀ region y, Pull.Tracks f (produce region y) (produce' region y)) :
    (ofRows size format announce produce).Tracks f (ofRows size format announce produce') where
  size_eq := rfl
  format_eq := rfl
  copy_eq q buffer s := by
    simp only [ofRows, replyByRows]
    split
    · rfl
    · rw [layRows_through fun r => h q.region (q.region.y.toNat + r)]
      rfl

namespace Tracks

variable {src : Source σ} {src' : Source τ} (h : src.Tracks f src')
include h

theorem after (s : σ) (asked : List (Request × Bytes)) :
    src'.after (f s) asked = f (src.after s asked) := by
  induction asked generalizing s with
  | nil => rfl
  | cons a asked ih =>
    simp only [Source.after, List.foldl_cons, h.copy_eq] at ih ⊢
    exact ih _

theorem fetchRow (y : Nat) : Pull.Tracks f (src.fetchRow y) (src'.fetchRow y) := by
  intro s
  simp only [Source.fetchRow, h.size_eq, h.format_eq, h.copy_eq]
  rfl

/-- The rows of the source that is seen are those of the source behind it. -/
theorem steady {s₀ : σ} {rows : Nat → Bytes} (hsteady : src'.Steady (f s₀) rows) :
    src.Steady s₀ rows := by
  rintro _ ⟨asked, rfl⟩ y hy row hrow
  refine hsteady _ ⟨asked, rfl⟩ y (by rwa [h.size_eq]) row ?_
  rw [h.after, h.fetchRow y]
  exact hrow

end Tracks

end Source

end Resampler

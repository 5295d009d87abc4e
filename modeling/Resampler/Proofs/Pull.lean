import Resampler.Source

/-!
Reasoning about pulls.

A pull is an action that changes a state and may fail. `Ensures` says of it what
its caller may rely on: from a state in `pre` it ends with a result and a state in
`post`, or it fails in `bad`. The rules below follow the ways in which pulls
are made, so that a stage is proved in the order in which it is written and no
proof has to look inside `Pull.bind`.
-/

namespace Resampler.Pull

variable {σ β γ : Type} {pre pre' : σ → Prop} {bad bad' : Failure → σ → Prop}

/-- Started in `pre`, the action ends in `post` or fails in `bad`. -/
def Ensures (m : Pull σ β) (pre : σ → Prop) (post : β → σ → Prop) (bad : Failure → σ → Prop) :
    Prop :=
  ∀ s, pre s →
    match (m s).result with
    | .ok b => post b (m s).state
    | .error e => bad e (m s).state

namespace Ensures

variable {m : Pull σ β} {post post' : β → σ → Prop}

theorem ok (h : m.Ensures pre post bad) {s : σ} (hs : pre s) {b : β} (hb : (m s).result = .ok b) :
    post b (m s).state := by
  have := h s hs
  rwa [hb] at this

theorem error (h : m.Ensures pre post bad) {s : σ} (hs : pre s) {e : Failure}
    (he : (m s).result = .error e) : bad e (m s).state := by
  have := h s hs
  rwa [he] at this

theorem weaken (h : m.Ensures pre post bad) (hpre : ∀ s, pre' s → pre s)
    (hpost : ∀ b s, post b s → post' b s) (hbad : ∀ e s, bad e s → bad' e s) :
    m.Ensures pre' post' bad' := by
  intro s hs
  cases hr : (m s).result with
  | ok b => exact hpost b _ (h.ok (hpre s hs) hr)
  | error e => exact hbad e _ (h.error (hpre s hs) hr)

theorem assuming (fact : Prop) (h : fact → m.Ensures pre post bad) (hfact : ∀ s, pre s → fact) :
    m.Ensures pre post bad :=
  fun s hs => h (hfact s hs) s hs

theorem of_state (h : ∀ s, pre s → m.Ensures (· = s) post bad) : m.Ensures pre post bad :=
  fun s hs => h s hs s rfl

end Ensures

/-- Every action meets the contract that asks for nothing. -/
theorem ensures_true (m : Pull σ β) :
    m.Ensures (fun _ => True) (fun _ _ => True) fun _ _ => True := by
  intro s _
  split <;> trivial

theorem ensures_pure {b : β} {post : β → σ → Prop} (h : ∀ s, pre s → post b s) :
    (pure b : Pull σ β).Ensures pre post bad :=
  fun s hs => h s hs

theorem bind_of_ok {m : Pull σ β} {f : β → Pull σ γ} {s : σ} {b : β} (h : (m s).result = .ok b) :
    (m >>= f) s = ⟨(f b (m s).state).result, (f b (m s).state).state,
      (m s).events ++ (f b (m s).state).events⟩ := by
  change Pull.bind m f s = _
  simp only [Pull.bind, h]

theorem bind_of_error {m : Pull σ β} {f : β → Pull σ γ} {s : σ} {e : Failure}
    (h : (m s).result = .error e) : (m >>= f) s = ⟨.error e, (m s).state, (m s).events⟩ := by
  change Pull.bind m f s = _
  simp only [Pull.bind, h]

theorem lookup_some_bind (b : β) (f : β → Pull σ γ) (s : σ) :
    (lookup (some b) >>= f) s = f b s := rfl

theorem update_bind (f : σ → σ) (g : Unit → Pull σ γ) (s : σ) :
    (update f >>= g) s = g () (f s) := rfl

theorem read_bind (f : σ → β) (g : β → Pull σ γ) (s : σ) : (read f >>= g) s = g (f s) s := rfl

/-- One action after another meets in the states between them. -/
theorem Ensures.bind {m : Pull σ β} {f : β → Pull σ γ} {post : γ → σ → Prop}
    (middle : β → σ → Prop) (hm : m.Ensures pre middle bad)
    (hf : ∀ b, (f b).Ensures (middle b) post bad) : (m >>= f).Ensures pre post bad := by
  intro s hs
  cases hr : (m s).result with
  | ok b =>
    rw [bind_of_ok hr]
    exact hf b _ (hm.ok hs hr)
  | error e =>
    rw [bind_of_error hr]
    exact hm.error hs hr

theorem ensures_lookup {o : Option β} {b : β} {post : β → σ → Prop} (ho : o = some b)
    (h : ∀ s, pre s → post b s) : (lookup o).Ensures pre post bad := by
  subst ho
  exact fun s hs => h s hs

theorem ensures_read {f : σ → β} {post : β → σ → Prop} (h : ∀ s, pre s → post (f s) s) :
    (read f).Ensures pre post bad :=
  fun s hs => h s hs

theorem ensures_update {f : σ → σ} {post : Unit → σ → Prop} (h : ∀ s, pre s → post () (f s)) :
    (update f).Ensures pre post bad :=
  fun s hs => h s hs

theorem ensures_report {e : Event} {post : Unit → σ → Prop} (h : ∀ s, pre s → post () s) :
    (report e).Ensures pre post bad :=
  fun s hs => h s hs

end Resampler.Pull

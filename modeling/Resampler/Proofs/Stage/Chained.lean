import Resampler.Proofs.Stage.Sharpened

/-!
What a chain of stages serves.

Each stage serves its image over a source that serves one, so a chain serves the image
that comes of putting the stages' images on top of each other. The statements go by
recursion on the chain, as the chain's own states and sources do. They ask of the chain
only that it was built by the ways that there are of putting a stage on top.
-/

namespace Resampler.Chain

variable {α σ : Type}

/-- The source at the bottom. -/
def bottom : Chain α σ → Source σ
  | base src => src
  | resample below _ => below.bottom
  | sharpen below _ => below.bottom

/-- Row `y` of the image that the chain makes of the rows of its source. -/
def picture : Chain α σ → (Nat → Bytes) → Nat → Bytes
  | base _, rows => rows
  | resample below plan, rows => plan.picture (below.picture rows)
  | sharpen below plan, rows => plan.picture (below.picture rows)

/-- The states in which every window of the chain holds rows of the stage below it. -/
def Coherent : (c : Chain α σ) → (σ → Prop) → (Nat → Bytes) → c.State → Prop
  | base _, I, _ => I
  | resample below plan, I, rows => plan.Coherent (below.Coherent I rows) (below.picture rows)
  | sharpen below plan, I, rows => plan.blur.Coherent (below.Coherent I rows) (below.picture rows)

/-- Before the first request all windows are empty. -/
theorem coherent_start (c : Chain α σ) {I : σ → Prop} (rows : Nat → Bytes) {s : σ} (hs : I s) :
    c.Coherent I rows (c.start s) := by
  induction c with
  | base src => exact hs
  | resample below plan ih => exact Resampling.coherent_initial ih
  | sharpen below plan ih => exact Resampling.coherent_initial ih

/-- A chain that was built stage by stage. -/
inductive Built [Analytic α] : Chain α σ → Prop
  | base (src : Source σ) : Built (base src)
  | resample {below : Chain α σ} {plan : Resampling} (hbelow : Built below)
      (h : below.Resamples plan) : Built (below.resample plan)
  | sharpen {below : Chain α σ} {settings : SharpenSettings α} {plan : Sharpening α}
      (hbelow : Built below) (h : (below.sharpened settings).result = .ok (below.sharpen plan)) :
      Built (below.sharpen plan)

/-- A chain serves its image over a source that serves one, with no fault of its own. -/
theorem Built.serves [Analytic α] {c : Chain α σ} (hc : c.Built) {I : σ → Prop}
    {rows : Nat → Bytes} {faults : Failure → Prop} (h : c.bottom.Serves I rows faults) :
    c.source.Serves (c.Coherent I rows) (c.picture rows) faults := by
  induction hc with
  | base src => exact h
  | resample _ hplan ih => exact (hplan.stands (ih h).gives).serves
  | sharpen _ hplan ih => exact (stands_of_sharpened hplan (ih h).gives).serves

end Resampler.Chain

import Resampler.Taps.Footprint
import Resampler.RowKernel
import Resampler.Settings

/-!
The building of stages.

Building a stage makes tables, takes memory and may find a fault on the way. Each
thing that gets finished is a milestone, and the milestones are kept even when what
follows them fails. `Construction` tells what building something comes to as long as
memory lasts, its milestones in order, and the runs of memory that it takes;
`Construction.outcome` is what comes of it in a memory that holds them or does not.
-/

namespace Resampler

/-- Something that was finished while a stage was built. -/
inductive Milestone (α : Type) where
  /-- a table that changes the number of samples; `taps` counts those of a loose window -/
  | scaleTable (input output taps channels : Nat) (support : α)
  /-- a table that blurs; `whole` tells that every window is the axis -/
  | blurTable (whole : Bool) (size : Nat) (radius : α) (taps channels : Nat)
  | resampling (source : Size) (width height xTaps yTaps : Nat) (kernel : RowKernel)
      (keepsSource : Bool)
  | sharpening (size : Size) (settings : SharpenSettings α) (taps : Nat)
  /-- the choice of stages for some settings -/
  | pipeline (source target : Size) (filter : Filter α) (resample sharpen : Bool)
deriving DecidableEq, Repr

/-- The building of something. -/
structure Construction (α β : Type) where
  /-- what it comes to as long as memory lasts -/
  result : Except (SetupError α) β
  milestones : List (Milestone α)
  /-- the bytes of each run of memory that it takes -/
  taken : List Nat

/-- Why nothing was built. -/
inductive BuildFailure (α : Type) where
  | fault (cause : SetupError α)
  | outOfMemory
deriving DecidableEq, Repr

namespace Construction

variable {α β γ : Type}

/-- Memory can hold each of the runs that are taken. Lengths are counted with checks for
overflow: where a number of bytes does not fit into a word, neither does the run into memory. -/
def Held (c : Construction α β) : Prop := ∀ n ∈ c.taken, n < Bytes.limit

instance (c : Construction α β) : Decidable c.Held := inferInstanceAs (Decidable (∀ _ ∈ _, _))

/-- What comes of building something. It ends at the first run that memory cannot hold. -/
def outcome (c : Construction α β) : Except (BuildFailure α) β :=
  if c.Held then c.result.mapError .fault else .error .outOfMemory

protected def pure (b : β) : Construction α β := ⟨.ok b, [], []⟩

/-- One construction after another. A fault ends both, and nothing is finished after memory
has run out. -/
protected def bind (c : Construction α β) (f : β → Construction α γ) : Construction α γ :=
  match c.result with
  | .error e => ⟨.error e, c.milestones, c.taken⟩
  | .ok b =>
    let next := f b
    ⟨next.result, c.milestones ++ (if c.Held then next.milestones else []), c.taken ++ next.taken⟩

instance : Monad (Construction α) where
  pure := Construction.pure
  bind := Construction.bind

/-- A check or a computation that may find a fault. -/
def ofExcept (r : Except (SetupError α) β) : Construction α β := ⟨r, [], []⟩

def reach (m : Milestone α) : Construction α Unit := ⟨.ok (), [m], []⟩

/-- Takes a run of memory for each of some numbers of bytes. -/
def take (runs : List Nat) : Construction α Unit := ⟨.ok (), [], runs⟩

end Construction

namespace TapTable

variable {α : Type}

/-- The construction of a table that changes the number of samples. The memory for its
weights is taken before they are computed. -/
def buildScale [Scalar α] (input output colors : Nat) (alpha : Bool) (f : Interpolation α) :
    Construction α TapTable := do
  let loose ← .ofExcept (LooseTable.scale input output colors alpha f)
  Construction.take [scaleBytes input output colors alpha f]
  Construction.reach (.scaleTable input output loose.tapCount loose.channels f.weighting.support)
  return loose.confine

/-- The construction of a table that blurs. -/
def buildBlur [Analytic α] (size : Nat) (radius : α) (colors : Nat) (alpha : Bool) :
    Construction α TapTable := do
  let loose ← .ofExcept (LooseTable.blur size radius colors alpha)
  Construction.take [blurBytes size radius colors alpha]
  let g ← .ofExcept (Gaussian.ofSigma? radius)
  Construction.reach
    (.blurTable (LooseTable.coversAxis g.reach size) size radius loose.tapCount loose.channels)
  return loose.confine

end TapTable

end Resampler

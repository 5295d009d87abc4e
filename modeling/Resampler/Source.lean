import Resampler.Pixel.Sample
import Resampler.Request

/-!
Sources of pixels.

A source is a machine. Its size and format are fixed; asked to copy a
rectangle into a buffer, it answers from its current state with an outcome, the
buffer as it then stands, its next state, and the events that the request
caused, in order. Whatever lies behind it (an image in memory, a failing disk,
a whole stack of stages) is hidden in the type of states.

Most sources produce one row after the other. They are given by what they do
for one row, a `Pull`, and `Source.ofRows` adds what they share: the check of
the request, and the laying out of the rows in the buffer.
-/

namespace Resampler

/-- Something that happened while pixels were produced. -/
inductive Event where
  | resampleRequest (region : Region)
  | sharpenRequest (region : Region)
  /-- a window of rows was completed from row `start` on -/
  | windowLoad (start reused fetched : Nat)
  /-- a source was made to fail -/
  | injectedFailure (row : UInt32)
deriving DecidableEq, Repr, Inhabited

/-- The outcome of one step from a state. -/
structure Step (σ β : Type) where
  result : Except Failure β
  state : σ
  events : List Event

/-- An action on a state that may fail and that reports events. -/
def Pull (σ β : Type) : Type := σ → Step σ β

namespace Pull

variable {σ τ β γ : Type}

protected def pure (b : β) : Pull σ β := fun s => ⟨.ok b, s, []⟩

/-- One action after another. A failure ends both; the state stays where it was left. -/
protected def bind (m : Pull σ β) (f : β → Pull σ γ) : Pull σ γ := fun s =>
  let r := m s
  match r.result with
  | .error e => ⟨.error e, r.state, r.events⟩
  | .ok b =>
    let t := f b r.state
    ⟨t.result, t.state, r.events ++ t.events⟩

instance : Monad (Pull σ) where
  pure := Pull.pure
  bind := Pull.bind

def fail (e : Failure) : Pull σ β := fun s => ⟨.error e, s, []⟩

def lookup (b : Option β) : Pull σ β :=
  match b with
  | some b => Pull.pure b
  | none => fail .outOfBounds

def report (e : Event) : Pull σ Unit := fun s => ⟨.ok (), s, [e]⟩

/-- The action that reads something off the state. -/
def read (f : σ → β) : Pull σ β := fun s => ⟨.ok (f s), s, []⟩

def update (f : σ → σ) : Pull σ Unit := fun s => ⟨.ok (), f s, []⟩

end Pull

/-- The answer to a request. -/
structure Reply (σ : Type) where
  result : Except Failure Unit
  buffer : Bytes
  state : σ
  events : List Event

/-- A machine that copies rectangles of pixels. It writes into the buffer that it is
given and so never changes its length. -/
structure Source (σ : Type) where
  size : Size
  format : PixelFormat
  copy : Request → Bytes → σ → Reply σ
  size_copy : ∀ q buffer s, (copy q buffer s).buffer.size = buffer.size

namespace Source

variable {σ : Type}

def bounds (src : Source σ) : Region := Region.ofSize src.size

/-- Lays out `n` rows from row `r` of a request on, `stride` bytes apart, until one fails. -/
def layRows (produce : Nat → Pull σ Bytes) (stride : Nat) (r : Nat) :
    Nat → Bytes → σ → Reply σ
  | 0, buffer, s => ⟨.ok (), buffer, s, []⟩
  | n + 1, buffer, s =>
    let step := produce r s
    match step.result with
    | .error e => ⟨.error e, buffer, step.state, step.events⟩
    | .ok row =>
      match buffer.blit? (r * stride) row with
      | none => ⟨.error .outOfBounds, buffer, step.state, step.events⟩
      | some buffer' =>
        let rest := layRows produce stride (r + 1) n buffer' step.state
        { rest with events := step.events ++ rest.events }

theorem size_layRows (produce : Nat → Pull σ Bytes) (stride r n : Nat) (buffer : Bytes) (s : σ) :
    (layRows produce stride r n buffer s).buffer.size = buffer.size := by
  induction n generalizing r buffer s with
  | zero => rfl
  | succ n ih =>
    simp only [layRows]
    split
    · rfl
    · split
      · rfl
      · next h => exact (ih ..).trans (Bytes.size_of_blit? h)

/-- The answer of a source that makes each requested row on its own. -/
def replyByRows (size : Size) (format : PixelFormat) (announce : Region → List Event)
    (produce : Region → Nat → Pull σ Bytes) (q : Request) (buffer : Bytes) (s : σ) : Reply σ :=
  match q.check size format buffer.size with
  | .error e => ⟨.error (.error e), buffer, s, []⟩
  | .ok _ =>
    let reply := layRows (fun r => produce q.region (q.region.y.toNat + r)) q.stride 0
      q.region.height.toNat buffer s
    { reply with events := announce q.region ++ reply.events }

/-- The source that makes each requested row on its own. A request is checked
before anything is done for it; `announce` names the events of its acceptance. -/
def ofRows (size : Size) (format : PixelFormat) (announce : Region → List Event)
    (produce : Region → Nat → Pull σ Bytes) : Source σ where
  size := size
  format := format
  copy := replyByRows size format announce produce
  size_copy q buffer s := by
    simp only [replyByRows]
    split
    · rfl
    · exact size_layRows ..

/-- The whole of row `y`, as the source writes it into a blank buffer. -/
def fetchRow (src : Source σ) (y : Nat) : Pull σ Bytes := fun s =>
  let len := src.format.rowBytes src.size.width
  let reply := src.copy ⟨Region.line src.size.width y, len⟩ (Array.replicate len 0) s
  ⟨reply.result.map fun _ => reply.buffer, reply.state, reply.events⟩

end Source

end Resampler

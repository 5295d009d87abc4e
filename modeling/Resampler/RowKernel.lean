import Resampler.Taps.Table
import Resampler.Pixel.Sample
import Resampler.Setup.Fault

/-!
Row kernels: the arithmetic on one row of pixels.

A row kernel knows how many channels a pixel has, how wide a sample is and what
the last channel means. It has three operations. The horizontal pass turns a row
of pixels into a row of intermediate samples, the vertical pass turns a window
of intermediate rows into a row of pixels, and sharpening combines a row with a
blurred copy of itself. Premultiplied pixels are treated as four colors that
share their weights; straight alpha has weights of its own.

A sample that lies outside its row is no sample, and the whole operation then
has no answer.
-/

namespace Resampler

/-- The sum of `f 0` to `f (n - 1)`, if all of them are there. -/
def sumTo? (f : Nat → Option Int) : Nat → Option Int
  | 0 => some 0
  | n + 1 => do return (← sumTo? f n) + (← f n)

/-- The shape of the pixels that a row kernel works on. -/
structure RowKernel where
  channels : Nat
  width : SampleWidth
  alpha : Alpha
deriving DecidableEq, Repr, Inhabited

namespace RowKernel

/-- The row kernel for a format whose samples are integers. -/
def ofFormat? (f : PixelFormat) : Option RowKernel :=
  match f.depth with
  | .integer w => some ⟨f.channels, w, f.alpha⟩
  | .float32 => none

/-- The row kernel for a format, or the reason why there is none. -/
def ofFormat {α : Type} (f : PixelFormat) : Except (SetupError α) RowKernel :=
  match ofFormat? f with
  | some k => .ok k
  | none => .error (.unsupported (.noRowKernel f.name))

/-- The name by which messages call a row kernel. -/
def name (k : RowKernel) : String :=
  channelNames ++ toString k.width.bits
where
  channelNames : String :=
    match k.alpha, k.channels with
    | .straight, _ => "Bgra"
    | .premultiplied, _ => "Pbgra"
    | .none, 1 => "Grey"
    | .none, 2 => "CbCr"
    | .none, _ => "Bgr"

def bytesPerPixel (k : RowKernel) : Nat := k.channels * k.width.bytes

/-- Whether alpha has weights of its own. -/
def splitsAlpha (k : RowKernel) : Bool := k.alpha == .straight

/-- The number of channels that share the color weights. -/
def weightColors (k : RowKernel) : Nat := if k.splitsAlpha then k.channels - 1 else k.channels

/-- A tap table must have one weight for each channel. -/
def checkTable {α : Type} (k : RowKernel) (m : TapTable) : Except (SetupError α) Unit :=
  if m.channels = k.channels then .ok ()
  else .error (.unsupported (.weightChannels k.name k.channels m.channels))

/-! The horizontal pass. -/

/-- The intermediate sample of channel `c` over one window of a row of pixels. -/
def convolveSample? (k : RowKernel) (src : Bytes) (e : Taps) (c : Nat) : Option Int := do
  let acc ← sumTo? (fun j => do
    let p ← k.width.load? src ((e.start + j) * k.channels + c)
    let w ← e.weights[j * k.channels + c]?
    return (p : Int) * w) (e.weights.size / k.channels)
  return Word.signed32 (FixedPoint.dropBits acc FixedPoint.horizontalDrop)

/-- The first `n` pixels of the intermediate row. -/
def convolvePixels? (k : RowKernel) (src : Bytes) (m : TapTable) (n : Nat) :
    Option (Array Int) := do
  let samples ← (List.range (n * k.channels)).mapM fun i => do
    k.convolveSample? src (← m.taps? (i / k.channels)) (i % k.channels)
  return samples.toArray

def convolveRow? (k : RowKernel) (src : Bytes) (m : TapTable) : Option (Array Int) :=
  k.convolvePixels? src m m.outputSize

/-- The intermediate row written over `dst`, as many whole pixels as `dst` has room for. -/
def convolveInto? (k : RowKernel) (src : Bytes) (m : TapTable) (dst : Array Int) :
    Option (Array Int) := do
  let row ← k.convolvePixels? src m (min (dst.size / k.channels) m.outputSize)
  return row ++ dst.extract row.size dst.size

/-! The vertical pass. -/

/-- The sample of channel `c` in column `x`, from a window of intermediate rows. -/
def blendSample? (k : RowKernel) (rows : Array (Array Int)) (weights : Array Int) (x c : Nat) :
    Option Nat := do
  let acc ← sumTo? (fun r => do
    let v ← (← rows[r]?)[x * k.channels + c]?
    let w ← weights[r * k.channels + c]?
    return v * w) (min rows.size (weights.size / k.channels))
  return FixedPoint.toSample (FixedPoint.dropBits acc FixedPoint.verticalDrop) k.width.max

/-- `dst` with the `ow` pixels from column `ox` on written over its start, which must have
room for them. -/
def blendInto? (k : RowKernel) (rows : Array (Array Int)) (weights : Array Int) (ox ow : Nat)
    (dst : Bytes) : Option Bytes := do
  if dst.size < ow * k.bytesPerPixel then failure
  let samples ← (List.range (ow * k.channels)).mapM fun i =>
    k.blendSample? rows weights (ox + i / k.channels) (i % k.channels)
  k.width.storeFrom? dst 0 samples

/-- The `ow` pixels from column `ox` on. -/
def blendRow? (k : RowKernel) (rows : Array (Array Int)) (weights : Array Int) (ox ow : Nat) :
    Option Bytes :=
  k.blendInto? rows weights ox ow (Array.replicate (ow * k.bytesPerPixel) 0)

/-- The whole rows of `rowLen` samples in a run of intermediate samples. -/
def splitRows (rowLen : Nat) (window : Array Int) : Array (Array Int) :=
  ((List.range (window.size / rowLen)).map fun r =>
    window.extract (r * rowLen) ((r + 1) * rowLen)).toArray

/-- The vertical pass over rows that lie back to back. Rows must not be empty. -/
def blendWindow? (k : RowKernel) (window : Array Int) (rowLen : Nat) (weights : Array Int)
    (ox ow : Nat) (dst : Bytes) : Option Bytes :=
  if ow = 0 then some dst
  else if rowLen = 0 then none
  else k.blendInto? (splitRows rowLen window) weights ox ow dst

/-! Sharpening. -/

/-- The sharpened value of sample `o` with blurred value `b`: a difference of at least
`threshold` is added again, `amount` hundredths of it, rounded half up and kept
between 0 and the larger of `o` and `limit`. -/
def sharpened (limit threshold amount o b : Int) : Int :=
  if threshold ≤ ((o - b).natAbs : Int) then
    max 0 (min (o + ((o - b) * amount + 50) / 100) (max limit o))
  else
    o

/-- The sharpened sample of channel `c` in column `x`. Alpha is not sharpened, and
premultiplied color is held to its alpha. -/
def sharpenSample? (k : RowKernel) (sharp blurred : Bytes) (amount : Int) (threshold : Nat)
    (x c : Nat) : Option Nat := do
  let o ← k.width.load? sharp (x * k.channels + c)
  if k.alpha.isPresent && c + 1 == k.channels then
    return o
  let b ← k.width.load? blurred (x * k.channels + c)
  let limit ←
    if k.alpha = .premultiplied then k.width.load? sharp (x * k.channels + (k.channels - 1))
    else some k.width.max
  return (sharpened limit (threshold * k.width.stepsPerByte : Nat) amount o b).toNat

/-- `dst` with as many sharpened pixels written over it as it has whole pixels. -/
def sharpenInto? (k : RowKernel) (sharp blurred : Bytes) (amount : Int) (threshold : Nat)
    (dst : Bytes) : Option Bytes := do
  let samples ← (List.range (dst.size / k.bytesPerPixel * k.channels)).mapM fun i =>
    k.sharpenSample? sharp blurred amount threshold (i / k.channels) (i % k.channels)
  k.width.storeFrom? dst 0 samples

def sharpenRow? (k : RowKernel) (sharp blurred : Bytes) (amount : Int) (threshold : Nat) :
    Option Bytes :=
  k.sharpenInto? sharp blurred amount threshold (Array.replicate sharp.size 0)

end RowKernel

end Resampler

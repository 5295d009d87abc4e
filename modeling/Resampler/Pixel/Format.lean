/-!
Interleaved pixel formats.

A format says how many channels a pixel has, how one sample is stored, and
what the last channel means. The set of formats is closed; everything else
about a format is computed from its table.
-/

namespace Resampler

/-- How an integer sample is stored. -/
inductive SampleWidth where
  | eight
  | sixteen
deriving DecidableEq, Repr, Inhabited

namespace SampleWidth

def bits : SampleWidth → Nat
  | eight => 8
  | sixteen => 16

def bytes : SampleWidth → Nat
  | eight => 1
  | sixteen => 2

def max : SampleWidth → Nat
  | eight => 255
  | sixteen => 65535

/-- The number of sample steps in one step of the 8-bit scale. -/
def stepsPerByte : SampleWidth → Nat
  | eight => 1
  | sixteen => 257

end SampleWidth

/-- How a sample of one channel is stored. -/
inductive Depth where
  | integer (width : SampleWidth)
  | float32
deriving DecidableEq, Repr, Inhabited

namespace Depth

def bits : Depth → Nat
  | integer w => w.bits
  | float32 => 32

def bytes : Depth → Nat
  | integer w => w.bytes
  | float32 => 4

def isFloat : Depth → Bool
  | integer _ => false
  | float32 => true

/-- The largest integer sample; zero where samples are not integers. -/
def max : Depth → Nat
  | integer w => w.max
  | float32 => 0

end Depth

/-- What the last channel of a pixel means. -/
inductive Alpha where
  /-- every channel is color -/
  | none
  /-- the last channel is alpha, and color does not depend on it -/
  | straight
  /-- the last channel is alpha, and color is already multiplied by it -/
  | premultiplied
deriving DecidableEq, Repr, Inhabited

def Alpha.isPresent : Alpha → Bool
  | none => false
  | straight => true
  | premultiplied => true

/-- The closed set of interleaved pixel formats. -/
inductive PixelFormat where
  | grey8
  | grey16
  | cbcr8
  | bgr24
  | bgr48
  | bgra32
  | pbgra32
  | bgra64
  | pbgra64
  | grey32Float
  | bgra128Float
deriving DecidableEq, Repr, Inhabited

namespace PixelFormat

def all : List PixelFormat :=
  [grey8, grey16, cbcr8, bgr24, bgr48, bgra32, pbgra32, bgra64, pbgra64, grey32Float, bgra128Float]

/-- The name by which messages and callers call a format. -/
def name : PixelFormat → String
  | grey8 => "Grey8"
  | grey16 => "Grey16"
  | cbcr8 => "CbCr8"
  | bgr24 => "Bgr24"
  | bgr48 => "Bgr48"
  | bgra32 => "Bgra32"
  | pbgra32 => "Pbgra32"
  | bgra64 => "Bgra64"
  | pbgra64 => "Pbgra64"
  | grey32Float => "Grey32Float"
  | bgra128Float => "Bgra128Float"

def ofName? (s : String) : Option PixelFormat := all.find? (·.name == s)

/-- No two formats have the same name. -/
@[simp] theorem ofName?_name (f : PixelFormat) : ofName? f.name = some f := by
  cases f <;> decide

def channels : PixelFormat → Nat
  | grey8 | grey16 | grey32Float => 1
  | cbcr8 => 2
  | bgr24 | bgr48 => 3
  | bgra32 | pbgra32 | bgra64 | pbgra64 | bgra128Float => 4

def alpha : PixelFormat → Alpha
  | bgra32 | bgra64 | bgra128Float => .straight
  | pbgra32 | pbgra64 => .premultiplied
  | _ => .none

/-- Channels of a pixel that carry color. -/
def colorChannels (f : PixelFormat) : Nat :=
  if f.alpha.isPresent then f.channels - 1 else f.channels

def depth : PixelFormat → Depth
  | grey8 | cbcr8 | bgr24 | bgra32 | pbgra32 => .integer .eight
  | grey16 | bgr48 | bgra64 | pbgra64 => .integer .sixteen
  | grey32Float | bgra128Float => .float32

def bytesPerPixel (f : PixelFormat) : Nat := f.channels * f.depth.bytes

/-- Bytes of a row of `width` pixels without padding. -/
def rowBytes (f : PixelFormat) (width : UInt32) : Nat := width.toNat * f.bytesPerPixel

theorem channels_pos (f : PixelFormat) : 0 < f.channels := by cases f <;> decide

theorem bytesPerPixel_pos (f : PixelFormat) : 0 < f.bytesPerPixel := by cases f <;> decide

theorem bytesPerPixel_le (f : PixelFormat) : f.bytesPerPixel ≤ 16 := by cases f <;> decide

/-- A row of any width fits into 36 bits, so its length is never in question. -/
theorem rowBytes_lt (f : PixelFormat) (width : UInt32) : f.rowBytes width < 68719476736 := by
  have hw := width.toNat_lt
  have hb := f.bytesPerPixel_le
  calc f.rowBytes width ≤ width.toNat * 16 := Nat.mul_le_mul_left _ hb
    _ < 68719476736 := by omega

end PixelFormat

end Resampler

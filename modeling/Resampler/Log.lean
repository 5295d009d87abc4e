import Resampler.Decimal.Layout
import Resampler.Setup.Construction
import Resampler.Source

/-!
The log.

What is finished while stages are built, and what happens while pixels are
produced, is reported in records: a level, a message, and named fields. Fields are
numbers and flags where they can be, and texts otherwise.
-/

namespace Resampler

/-- How much a record matters. -/
inductive LogLevel where
  | debug
  | trace
deriving DecidableEq, Repr, Inhabited

/-- The value of a field. -/
inductive LogValue (α : Type) where
  | integer (n : Int)
  | flag (b : Bool)
  | real (x : α)
  | text (s : String)
deriving DecidableEq, Repr, Inhabited

/-- A record of the log. -/
structure LogRecord (α : Type) where
  level : LogLevel
  message : String
  fields : List (String × LogValue α)
deriving DecidableEq, Repr, Inhabited

/-- A natural number as the value of a field. -/
def LogValue.natural {α : Type} (n : Nat) : LogValue α := .integer n

/-- How doubles are written inside the text of a field. -/
def logReals : Decimal.Layout where
  positional e := -4 ≤ e && e ≤ 15
  pointZero := true
  exponentPlus := false
  tie := .up
  nan := "NaN"
  infinity := "inf"
  negativeInfinity := "-inf"

/-- A size in the text of a field. -/
def Size.logText (s : Size) : String :=
  "(" ++ toString s.width.toNat ++ ", " ++ toString s.height.toNat ++ ")"

/-- A filter in the text of a field. -/
def Filter.logText : Filter Float → String
  | nearest => "Nearest"
  | average => "Average"
  | linear => "Linear"
  | hermite => "Hermite"
  | quadratic => "Quadratic"
  | mitchell => "Mitchell"
  | catmullRom => "CatmullRom"
  | cubic => "Cubic"
  | cubicSmoother => "CubicSmoother"
  | lanczos => "Lanczos"
  | spline36 => "Spline36"
  | gaussian sigma => "Gaussian \x7b sigma: " ++ logReals.render sigma ++ " \x7d"

/-- What is logged when something is finished. -/
def Milestone.record : Milestone Float → LogRecord Float
  | scaleTable input output taps channels support =>
    ⟨.debug, "built scale map", [
      ("input_size", .natural input),
      ("output_size", .natural output),
      ("samples", .natural taps),
      ("channels", .natural channels),
      ("support", .real support)]⟩
  | blurTable whole size radius taps channels =>
    ⟨.debug, if whole then "built folded blur map" else "built blur map", [
      ("size", .natural size),
      ("radius", .real radius),
      ("samples", .natural taps),
      ("channels", .natural channels)]⟩
  | resampling source width height xTaps yTaps kernel keepsSource =>
    ⟨.debug, "convolution transform", [
      ("src_width", .natural source.width.toNat),
      ("src_height", .natural source.height.toNat),
      ("dst_width", .natural width),
      ("dst_height", .natural height),
      ("x_samples", .natural xTaps),
      ("y_samples", .natural yTaps),
      ("convolver", .text kernel.name),
      ("buffered", .flag keepsSource)]⟩
  | sharpening size settings taps =>
    ⟨.debug, "unsharp mask", [
      ("width", .natural size.width.toNat),
      ("height", .natural size.height.toNat),
      ("amount", .integer settings.amount.toInt),
      ("radius", .real settings.radius),
      ("threshold", .natural settings.threshold.toNat),
      ("taps", .natural taps)]⟩
  | pipeline source target filter resample sharpen =>
    ⟨.debug, "building pipeline", [
      ("from", .text source.logText),
      ("to", .text target.logText),
      ("filter", .text filter.logText),
      ("resample", .flag resample),
      ("sharpen", .flag sharpen)]⟩

def Event.record {α : Type} : Event → LogRecord α
  | resampleRequest region =>
    ⟨.trace, "convolution copy_pixels", [("rect", .text region.render)]⟩
  | sharpenRequest region =>
    ⟨.trace, "unsharp copy_pixels", [("rect", .text region.render)]⟩
  | windowLoad start reused fetched =>
    ⟨.trace, "window load", [
      ("start", .natural start),
      ("reused", .natural reused),
      ("fetched", .natural fetched)]⟩
  | injectedFailure row =>
    ⟨.trace, "injected failure", [("row", .natural row.toNat)]⟩

end Resampler

import Resampler.Decimal.Layout
import Resampler.Decimal.Reading
import Resampler.Decimal.Shortest
import Resampler.Failure
import Resampler.Filter
import Resampler.FixedPoint
import Resampler.Gaussian
import Resampler.Image
import Resampler.Json.Reader
import Resampler.Json.Value
import Resampler.Log
import Resampler.Pixel.Format
import Resampler.Pixel.Region
import Resampler.Pixel.Sample
import Resampler.Proofs.Convolution
import Resampler.Proofs.FixedPoint
import Resampler.Proofs.Image
import Resampler.Proofs.Pixel.Packing
import Resampler.Proofs.Pixel.Rows
import Resampler.Proofs.Pull
import Resampler.Proofs.Resize.Stages
import Resampler.Proofs.Resize.Strips
import Resampler.Proofs.Resize.Tiles
import Resampler.Proofs.Setup.Outcome
import Resampler.Proofs.Setup.Stages
import Resampler.Proofs.Sharpening
import Resampler.Proofs.Source.Fetching
import Resampler.Proofs.Source.Serving
import Resampler.Proofs.Stage.Chained
import Resampler.Proofs.Stage.Counted
import Resampler.Proofs.Stage.Interrupted
import Resampler.Proofs.Stage.Kinds
import Resampler.Proofs.Stage.Loading
import Resampler.Proofs.Stage.Ordered
import Resampler.Proofs.Stage.Progress
import Resampler.Proofs.Stage.Resampled
import Resampler.Proofs.Stage.Retried
import Resampler.Proofs.Stage.Sharpened
import Resampler.Proofs.Stage.Window
import Resampler.Proofs.Taps.Balanced
import Resampler.Proofs.Taps.Confined
import Resampler.Proofs.Taps.Folding
import Resampler.Request
import Resampler.Resize.Basic
import Resampler.Resize.Proportions
import Resampler.Resize.Strips
import Resampler.RowKernel
import Resampler.Scalar
import Resampler.Scalar.Binary64
import Resampler.Scalar.Rational
import Resampler.Settings
import Resampler.Settings.Json
import Resampler.Settings.Record
import Resampler.Settings.Yaml
import Resampler.Setup.Construction
import Resampler.Setup.Fault
import Resampler.Setup.Message
import Resampler.Source
import Resampler.Source.Instrumented
import Resampler.Stage.Band
import Resampler.Stage.Chain
import Resampler.Stage.Resampling
import Resampler.Stage.Sharpening
import Resampler.Taps.Blur
import Resampler.Taps.Footprint
import Resampler.Taps.Scale
import Resampler.Taps.Table
import Resampler.Weighting
import Resampler.Word
import Resampler.Yaml.Cursor
import Resampler.Yaml.Document
import Resampler.Yaml.Node
import Resampler.Yaml.Property
import Resampler.Yaml.Scalar
import Resampler.Yaml.Tag
import Resampler.Yaml.Text
import Resampler.Yaml.Token
import Resampler.Yaml.Token.Lexer
import Resampler.Proofs.Stage.Sampled
import Resampler.Proofs.Stage.Accurate
import Resampler.Proofs.Stage.Flat
import Resampler.Proofs.Stage.Memory
import Resampler.Proofs.Stage.Bounds
import Resampler.Proofs.Convolution.Unbounded
import Resampler.Proofs.Convolution.Monotone
import Resampler.Proofs.Stage.Premultiplied
import Resampler.Proofs.Stage.Local
import Resampler.Proofs.Stage.Identity
import Resampler.Proofs.Taps.Replicated
import Resampler.Proofs.Stage.Blame
import Resampler.Proofs.Tracking
import Resampler.Proofs.Stage.Keeping
import Resampler.Proofs.Resize.Acceptance
import Resampler.Proofs.Stage.Shifted
import Resampler.Proofs.Stage.Averaged
import Resampler.Proofs.FixedPoint.Quantized
import Resampler.Proofs.Taps.Alpha
import Resampler.Proofs.Stage.Missing
import Resampler.Proofs.Sharpening.Away
import Resampler.Proofs.Stage.Blurred
import Resampler.Proofs.Stage.Idle
import Resampler.Proofs.Image.Copied
import Resampler.Proofs.Request
import Resampler.Proofs.Taps.Covering
import Resampler.Proofs.Taps.Nearest
import Resampler.Proofs.Taps.Distortion
import Resampler.Proofs.Pixel.Overlap
import Resampler.Proofs.Taps.Halved
import Resampler.Proofs.Taps.Identity
import Resampler.Proofs.Taps.Symmetric
import Resampler.Proofs.Binary64.Arithmetic
import Resampler.Proofs.Binary64.Exponential
import Resampler.Proofs.Binary64.Integer
import Resampler.Proofs.Binary64.NaN
import Resampler.Proofs.Binary64.Scalar
import Resampler.Proofs.Binary64.Spacing
import Resampler.Proofs.Binary64.Summation
import Resampler.Proofs.Taps.Peaked
import Resampler.Proofs.Taps.Centered
import Resampler.Proofs.Taps.Shares
import Resampler.Proofs.Taps.Bounded
import Resampler.Proofs.Image.Samples
import Resampler.Proofs.Resize.Proportions
import Resampler.Proofs.Settings.Json
import Resampler.Proofs.Yaml.Gains
import Resampler.Proofs.Settings.Encoded
import Resampler.Proofs.Settings.Record
import Resampler.Proofs.Settings.Yaml

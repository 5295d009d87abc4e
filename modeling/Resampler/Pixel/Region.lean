/-!
Sizes and rectangles of pixels.

A rectangle names the pixels that a request asks for. Its four fields are
unsigned 32-bit words; its far edges are numbers, so that an edge past
`2 ^ 32` is seen as such and never comes back around as a small one.
-/

namespace Resampler

/-- Width and height of an image in pixels. -/
structure Size where
  width : UInt32
  height : UInt32
deriving DecidableEq, Repr, Inhabited

/-- The pixels `(i, j)` with `x ≤ i < x + width` and `y ≤ j < y + height`. -/
structure Region where
  x : UInt32
  y : UInt32
  width : UInt32
  height : UInt32
deriving DecidableEq, Repr, Inhabited

namespace Region

/-- The rectangle of all pixels of an image. -/
def ofSize (s : Size) : Region := ⟨0, 0, s.width, s.height⟩

/-- The column after the last one. -/
def right (r : Region) : Nat := r.x.toNat + r.width.toNat

/-- The row after the last one. -/
def bottom (r : Region) : Nat := r.y.toNat + r.height.toNat

def area (r : Region) : Nat := r.width.toNat * r.height.toNat

/-- Whether there is no pixel in the rectangle. -/
def isEmpty (r : Region) : Bool := r.width == 0 || r.height == 0

/-- Whether the origin and both far edges of `s` lie within `r`. An empty `s`
may stand on the far edge. -/
def contains (r s : Region) : Bool :=
  r.x ≤ s.x && r.y ≤ s.y && s.right ≤ r.right && s.bottom ≤ r.bottom

/-- The rectangle of the common pixels, or `none` if there are none. -/
def intersect (r s : Region) : Option Region :=
  let x := max r.x s.x
  let y := max r.y s.y
  let right := min r.right s.right
  let bottom := min r.bottom s.bottom
  if x.toNat < right ∧ y.toNat < bottom then
    some ⟨x, y, UInt32.ofNat (right - x.toNat), UInt32.ofNat (bottom - y.toNat)⟩
  else
    none

/-- The part of row `y` that spans the columns of `r`. -/
def row (r : Region) (y : UInt32) : Region := ⟨r.x, y, r.width, 1⟩

/-- The whole of row `y` of an image of the given width. -/
def line (width : UInt32) (y : Nat) : Region := ⟨0, UInt32.ofNat y, width, 1⟩

/-- The written form: `(x, y, widthxheight)`. -/
def render (r : Region) : String :=
  "(" ++ toString r.x.toNat ++ ", " ++ toString r.y.toNat ++ ", " ++ toString r.width.toNat ++ "x"
    ++ toString r.height.toNat ++ ")"

theorem contains_iff (r s : Region) :
    r.contains s = true ↔
      r.x.toNat ≤ s.x.toNat ∧ r.y.toNat ≤ s.y.toNat ∧
        s.right ≤ r.right ∧ s.bottom ≤ r.bottom := by
  simp [contains, UInt32.le_iff_toNat_le, and_assoc]

theorem contains_ofSize_iff (z : Size) (s : Region) :
    (ofSize z).contains s = true ↔
      s.right ≤ z.width.toNat ∧ s.bottom ≤ z.height.toNat := by
  simp [contains_iff, ofSize, right, bottom]

end Region

end Resampler

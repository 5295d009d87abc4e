import Resampler.Proofs.Request

/-!
Rectangles as sets of pixels.

The operations on rectangles compare and subtract the numbers that their edges are. Here they are
operations on sets: the intersection includes the common pixels and is there exactly if there are
any, and one rectangle contains another that is not empty exactly if it includes all of its pixels.
An edge may lie past all that a field can hold, but of two rectangles the overlap starts and ends
where one of them does, so that its fields hold what they should (`Overlap`), and so do words.

Since the intersection is never empty, it is known by the pixels that it includes. Whatever holds of
sets of pixels therefore holds of rectangles, the order of intersections for one.
-/

namespace Resampler

/-- The pixel in column `x` and row `y` lies in the rectangle. -/
structure Region.Includes (region : Region) (y x : Nat) : Prop where
  left_le : region.x.toNat ≤ x
  lt_right : x < region.right
  top_le : region.y.toNat ≤ y
  lt_bottom : y < region.bottom

namespace Region

/-- `intersect`, with edges that are words, and with sizes that are cut to what a field holds. -/
def intersectWords (r s : Region) : Option Region :=
  let x := max r.x s.x
  let y := max r.y s.y
  let right := min r.rightWord s.rightWord
  let bottom := min r.bottomWord s.bottomWord
  if x.toUInt64 < right ∧ y.toUInt64 < bottom then
    some ⟨x, y, (right - x.toUInt64).toUInt32, (bottom - y.toUInt64).toUInt32⟩
  else
    none

/-- The edges of `m` are the innermost ones of `r` and `s`, with something between them. -/
structure Overlap (r s m : Region) : Prop where
  x_eq : m.x.toNat = max r.x.toNat s.x.toNat
  y_eq : m.y.toNat = max r.y.toNat s.y.toNat
  right_eq : m.right = min r.right s.right
  bottom_eq : m.bottom = min r.bottom s.bottom
  x_lt_right : m.x.toNat < m.right
  y_lt_bottom : m.y.toNat < m.bottom

variable {r s t m : Region}

theorem isEmpty_eq_false_iff : r.isEmpty = false ↔ 0 < r.width.toNat ∧ 0 < r.height.toNat := by
  simp only [isEmpty, Bool.or_eq_false_iff, beq_eq_false_iff_ne, ne_eq, ← UInt32.toNat_inj,
    UInt32.toNat_zero, Nat.pos_iff_ne_zero]

/-- An overlap is no wider than either rectangle, so its size fits into a field. -/
theorem toNat_ofNat_sub_of_le {edge far : Nat} {start size : UInt32} (hedge : start.toNat ≤ edge)
    (hfar : far ≤ start.toNat + size.toNat) :
    (UInt32.ofNat (far - edge)).toNat = far - edge := by
  have hsize := size.toNat_lt
  rw [UInt32.toNat_ofNat']
  exact Nat.mod_eq_of_lt (by omega)

theorem overlap_of_intersect (h : r.intersect s = some m) : Overlap r s m := by
  simp only [intersect, UInt32.toNat_max] at h
  split at h
  case isTrue hlt =>
    obtain rfl := Option.some.inj h
    have hwidth := toNat_ofNat_sub_of_le (le_max_left r.x.toNat s.x.toNat)
      (min_le_left r.right s.right)
    have hheight := toNat_ofNat_sub_of_le (le_max_left r.y.toNat s.y.toNat)
      (min_le_left r.bottom s.bottom)
    constructor <;> simp only [right, bottom, UInt32.toNat_max] at * <;> omega
  case isFalse => cases h

/-- Without an intersection, one rectangle ends before the other starts. -/
theorem edges_of_intersect_eq_none (h : r.intersect s = none) :
    min r.right s.right ≤ max r.x.toNat s.x.toNat ∨
      min r.bottom s.bottom ≤ max r.y.toNat s.y.toNat := by
  simp only [intersect, UInt32.toNat_max] at h
  split at h
  case isTrue => cases h
  case isFalse hnot => omega

/-- The words of the intersection are the numbers. -/
@[simp] theorem intersectWords_eq (r s : Region) : r.intersectWords s = r.intersect s := by
  have hcut {far start : UInt64} (h : start < far) :
      (far - start).toUInt32 = UInt32.ofNat (far.toNat - start.toNat) := by
    rw [← UInt32.toNat_inj, UInt64.toNat_toUInt32, UInt32.toNat_ofNat',
      UInt64.toNat_sub_of_le _ _ (UInt64.le_of_lt h)]
  have hiff {start : UInt32} {far : UInt64} : start.toUInt64 < far ↔ start.toNat < far.toNat := by
    rw [UInt64.lt_iff_toNat_lt, UInt32.toNat_toUInt64]
  simp only [intersectWords, intersect]
  split
  case isTrue h =>
    rw [hcut h.1, hcut h.2]
    simp only [hiff, UInt64.toNat_min, toNat_rightWord, toNat_bottomWord] at h
    simp only [if_pos h, UInt32.toNat_toUInt64, UInt64.toNat_min, toNat_rightWord,
      toNat_bottomWord]
  case isFalse h =>
    simp only [hiff, UInt64.toNat_min, toNat_rightWord, toNat_bottomWord] at h
    rw [if_neg h]

namespace Overlap

variable (h : Overlap r s m)
include h

/-- An overlap has a pixel. -/
theorem isEmpty_eq_false : m.isEmpty = false := by
  have hx := h.x_lt_right
  have hy := h.y_lt_bottom
  rw [isEmpty_eq_false_iff]
  simp only [right, bottom] at hx hy
  omega

/-- The pixels of the overlap are the common pixels. -/
theorem includes_iff {y x : Nat} : m.Includes y x ↔ r.Includes y x ∧ s.Includes y x := by
  have hx := h.x_eq
  have hy := h.y_eq
  have hright := h.right_eq
  have hbottom := h.bottom_eq
  constructor
  · rintro ⟨hleft, hlt, htop, hlow⟩
    exact ⟨⟨by omega, by omega, by omega, by omega⟩, ⟨by omega, by omega, by omega, by omega⟩⟩
  · rintro ⟨⟨hleft, hlt, htop, hlow⟩, hleft', hlt', htop', hlow'⟩
    exact ⟨by omega, by omega, by omega, by omega⟩

end Overlap

/-- A rectangle that is not empty includes its first pixel and its last one. -/
theorem includes_corners (h : r.isEmpty = false) :
    r.Includes r.y.toNat r.x.toNat ∧ r.Includes (r.bottom - 1) (r.right - 1) := by
  obtain ⟨hwidth, hheight⟩ := isEmpty_eq_false_iff.mp h
  have hright : r.x.toNat < r.right := Nat.lt_add_of_pos_right hwidth
  have hbottom : r.y.toNat < r.bottom := Nat.lt_add_of_pos_right hheight
  exact ⟨⟨le_rfl, hright, le_rfl, hbottom⟩, by omega, by omega, by omega, by omega⟩

/-- A rectangle includes all pixels of one that is not empty exactly if its edges enclose those. -/
theorem contains_iff_includes (h : s.isEmpty = false) :
    r.contains s = true ↔ ∀ y x, s.Includes y x → r.Includes y x := by
  rw [contains_iff]
  constructor
  · rintro ⟨hx, hy, hright, hbottom⟩ y x ⟨hleft, hlt, htop, hlow⟩
    exact ⟨by omega, by omega, by omega, by omega⟩
  · intro hall
    obtain ⟨hfirst, hlast⟩ := includes_corners h
    have hstart := hall _ _ hfirst
    have hend := hall _ _ hlast
    have hright := hlast.lt_right
    have hbottom := hlast.lt_bottom
    have hend_right := hend.lt_right
    have hend_bottom := hend.lt_bottom
    exact ⟨hstart.left_le, hstart.top_le, by omega, by omega⟩

/-- Rectangles that are not empty are known by their pixels. -/
theorem eq_of_includes_iff (hr : r.isEmpty = false) (hs : s.isEmpty = false)
    (h : ∀ y x, r.Includes y x ↔ s.Includes y x) : r = s := by
  obtain ⟨hx, hy, hright, hbottom⟩ := (contains_iff r s).mp
    ((contains_iff_includes hs).mpr fun y x => (h y x).mpr)
  obtain ⟨hx', hy', hright', hbottom'⟩ := (contains_iff s r).mp
    ((contains_iff_includes hr).mpr fun y x => (h y x).mp)
  cases r with | mk x y width height =>
  cases s with | mk x' y' width' height' =>
  simp only [right, bottom] at *
  simp only [Region.mk.injEq, ← UInt32.toNat_inj]
  omega

/-- So are rectangles that are there only if they have a pixel. -/
theorem eq_of_pixels {o o' : Option Region} (ho : ∀ m ∈ o, m.isEmpty = false)
    (ho' : ∀ m ∈ o', m.isEmpty = false)
    (h : ∀ y x, (∃ m ∈ o, m.Includes y x) ↔ ∃ m ∈ o', m.Includes y x) : o = o' := by
  cases o with
  | none =>
    cases o' with
    | none => rfl
    | some m' =>
      obtain ⟨m, hm, -⟩ := (h _ _).mpr ⟨m', rfl, (includes_corners (ho' m' rfl)).1⟩
      cases hm
  | some m =>
    cases o' with
    | none =>
      obtain ⟨m', hm', -⟩ := (h _ _).mp ⟨m, rfl, (includes_corners (ho m rfl)).1⟩
      cases hm'
    | some m' =>
      refine congrArg some (eq_of_includes_iff (ho m rfl) (ho' m' rfl) fun y x => ?_)
      simpa using h y x

theorem isEmpty_of_mem_intersect : ∀ m ∈ r.intersect s, m.isEmpty = false :=
  fun _ hm => (overlap_of_intersect hm).isEmpty_eq_false

/-- The pixels of the intersection are the common pixels. -/
theorem includes_intersect_iff {y x : Nat} :
    (∃ m ∈ r.intersect s, m.Includes y x) ↔ r.Includes y x ∧ s.Includes y x := by
  cases h : r.intersect s with
  | some m => simpa using (overlap_of_intersect h).includes_iff
  | none =>
    refine iff_of_false (by simp) ?_
    rintro ⟨⟨hleft, hlt, htop, hlow⟩, hleft', hlt', htop', hlow'⟩
    have hedges := edges_of_intersect_eq_none h
    omega

/-- Rectangles without a common pixel have no intersection. -/
theorem intersect_eq_none_iff :
    r.intersect s = none ↔ ∀ y x, ¬(r.Includes y x ∧ s.Includes y x) := by
  constructor
  · intro h y x hboth
    obtain ⟨m, hm, -⟩ := includes_intersect_iff.mpr hboth
    rw [h] at hm
    cases hm
  · intro h
    refine eq_of_pixels isEmpty_of_mem_intersect (by simp) fun y x => ?_
    rw [includes_intersect_iff]
    exact iff_of_false (h y x) (by simp)

theorem intersect_comm (r s : Region) : r.intersect s = s.intersect r :=
  eq_of_pixels isEmpty_of_mem_intersect isEmpty_of_mem_intersect fun y x => by
    rw [includes_intersect_iff, includes_intersect_iff, and_comm]

/-- In which order three rectangles are intersected makes no difference. If two of them have no
common pixel, there is nothing left to intersect. -/
theorem intersect_assoc (r s t : Region) :
    (r.intersect s).bind (·.intersect t) = (s.intersect t).bind r.intersect := by
  have hpixels (o : Option Region) (f : Region → Option Region) (y x : Nat) :
      (∃ m ∈ o.bind f, m.Includes y x) ↔ ∃ n ∈ o, ∃ m ∈ f n, m.Includes y x := by
    cases o <;> simp
  refine eq_of_pixels (fun m hm => ?_) (fun m hm => ?_) fun y x => ?_
  case refine_1 =>
    obtain ⟨_, -, hm⟩ := Option.mem_bind_iff.mp hm
    exact isEmpty_of_mem_intersect m hm
  case refine_2 =>
    obtain ⟨_, -, hm⟩ := Option.mem_bind_iff.mp hm
    exact isEmpty_of_mem_intersect m hm
  case refine_3 =>
    have hleft : (∃ n ∈ r.intersect s, n.Includes y x ∧ t.Includes y x) ↔
        (r.Includes y x ∧ s.Includes y x) ∧ t.Includes y x := by
      rw [← includes_intersect_iff]
      exact ⟨fun ⟨n, hn, hin, ht⟩ => ⟨⟨n, hn, hin⟩, ht⟩, fun ⟨⟨n, hn, hin⟩, ht⟩ => ⟨n, hn, hin, ht⟩⟩
    have hright : (∃ n ∈ s.intersect t, r.Includes y x ∧ n.Includes y x) ↔
        r.Includes y x ∧ s.Includes y x ∧ t.Includes y x := by
      rw [← includes_intersect_iff]
      exact ⟨fun ⟨n, hn, hr, hin⟩ => ⟨hr, n, hn, hin⟩, fun ⟨hr, n, hn, hin⟩ => ⟨n, hn, hr, hin⟩⟩
    simp only [hpixels, includes_intersect_iff]
    rw [hleft, hright, and_assoc]

/-- A rectangle that is not empty is contained exactly if nothing is cut off from it. -/
theorem contains_iff_intersect_eq (h : s.isEmpty = false) :
    r.contains s = true ↔ r.intersect s = some s := by
  rw [contains_iff_includes h]
  constructor
  · intro hall
    refine eq_of_pixels isEmpty_of_mem_intersect (by simpa using h) fun y x => ?_
    rw [includes_intersect_iff]
    simpa using hall y x
  · intro hsome y x hin
    exact ((overlap_of_intersect hsome).includes_iff.mp hin).1

/-- Intersection and containment of rectangles are those of the sets of their pixels. The pixels
of the intersection are the common ones, and there is no intersection exactly if there are none. No
word on the way to it wraps around, its edges are the innermost ones of the two, and it is never
empty. The order of intersections makes no difference. A rectangle contains one that is not empty
exactly if it includes all of its pixels, which is to say that their intersection is that one. -/
theorem denotes_pixels (r s t : Region) :
    (∀ y x, r.Includes y x ∧ s.Includes y x ↔ ∃ m, r.intersect s = some m ∧ m.Includes y x) ∧
    (r.intersect s = none ↔ ∀ y x, ¬(r.Includes y x ∧ s.Includes y x)) ∧
    (r.intersectWords s = r.intersect s ∧ r.containsWords s = r.contains s) ∧
    (∀ m, r.intersect s = some m → Overlap r s m ∧ m.isEmpty = false) ∧
    r.intersect s = s.intersect r ∧
    (r.intersect s).bind (·.intersect t) = (s.intersect t).bind r.intersect ∧
    (s.isEmpty = false →
      (r.contains s = true ↔ ∀ y x, s.Includes y x → r.Includes y x) ∧
      (r.contains s = true ↔ r.intersect s = some s)) := by
  refine ⟨fun y x => includes_intersect_iff.symm, intersect_eq_none_iff,
    ⟨intersectWords_eq r s, containsWords_eq r s⟩, fun m hm => ?_, intersect_comm r s,
    intersect_assoc r s t, fun hs => ⟨contains_iff_includes hs, contains_iff_intersect_eq hs⟩⟩
  exact ⟨overlap_of_intersect hm, (overlap_of_intersect hm).isEmpty_eq_false⟩

/-- Two rectangles whose far edges lie past the largest field share a single pixel in a corner. -/
theorem denotes_pixels_past_fields :
    let r : Region := ⟨4294967290, 0, 4294967295, 8⟩
    let s : Region := ⟨4294967295, 7, 1, 4294967295⟩
    r.intersect s = some ⟨4294967295, 7, 1, 1⟩ ∧ s.isEmpty = false ∧ r.contains s = false ∧
      ¬∀ y x, s.Includes y x → r.Includes y x := by
  intro r s
  obtain ⟨-, -, -, -, -, -, hcontains⟩ := denotes_pixels r s r
  obtain ⟨hall, -⟩ := hcontains (by decide)
  refine ⟨by decide, by decide, by decide, fun hin => ?_⟩
  exact absurd (hall.mpr hin) (by decide)

end Region

end Resampler

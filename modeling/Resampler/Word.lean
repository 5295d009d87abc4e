/-!
Fixed-width words.

Weights and intermediate samples are kept in signed 32-bit words and the
accumulators of the row kernels in signed 64-bit words. Sums are written over
the integers and read back through `signed32` and `signed64`, which give the
word that a machine register would hold: the value itself when it fits, and
otherwise the value congruent to it that does.
-/

namespace Resampler.Word

/-- The signed 32-bit word congruent to `x`. -/
def signed32 (x : Int) : Int := x.bmod 4294967296

/-- The signed 64-bit word congruent to `x`. -/
def signed64 (x : Int) : Int := x.bmod 18446744073709551616

/-- The largest value of an unsigned 64-bit word is one below this. -/
def limit64 : Nat := 18446744073709551616

/-- `x` moved to the nearest end of the signed 32-bit range if it lies outside. -/
def saturate32 (x : Int) : Int := max (-2147483648) (min x 2147483647)

/-- `x` moved to the nearest end of the signed 64-bit range if it lies outside. -/
def saturate64 (x : Int) : Int :=
  max (-9223372036854775808) (min x 9223372036854775807)

/-- `x` moved to the nearest end of the unsigned 32-bit range if it lies outside. -/
def saturateUnsigned32 (x : Int) : UInt32 := UInt32.ofNat (min x 4294967295).toNat

theorem signed32_of_fits {x : Int} (hlo : -2147483648 ≤ x) (hhi : x < 2147483648) :
    signed32 x = x := by
  unfold signed32
  rw [Int.bmod_eq_of_le] <;> omega

theorem signed64_of_fits {x : Int}
    (hlo : -9223372036854775808 ≤ x) (hhi : x < 9223372036854775808) :
    signed64 x = x := by
  unfold signed64
  rw [Int.bmod_eq_of_le] <;> omega

theorem signed32_fits (x : Int) : -2147483648 ≤ signed32 x ∧ signed32 x < 2147483648 := by
  unfold signed32
  have h₁ := Int.le_bmod (x := x) (m := 4294967296) (by decide)
  have h₂ := Int.bmod_lt (x := x) (m := 4294967296) (by decide)
  omega

/-- Reading a word back in the middle of a sum does not change the word of the sum. -/
@[simp] theorem signed32_add_signed32 (x y : Int) :
    signed32 (x + signed32 y) = signed32 (x + y) := by
  simp [signed32]

@[simp] theorem signed32_signed32_add (x y : Int) :
    signed32 (signed32 x + y) = signed32 (x + y) := by
  simp [signed32]

@[simp] theorem signed32_signed32 (x : Int) : signed32 (signed32 x) = signed32 x := by
  simp [signed32]

end Resampler.Word

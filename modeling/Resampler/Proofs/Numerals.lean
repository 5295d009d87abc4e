import Mathlib

/-!
Numerals of the reals.

A numeral of the reals carries a proof that it is at least two. Here these proofs have names, so
that a statement with numerals is the same term wherever it is elaborated.
-/

namespace Resampler

instance atLeastTwo_two : Nat.AtLeastTwo 2 := ⟨le_rfl⟩

instance atLeastTwo_four : Nat.AtLeastTwo 4 := ⟨by decide⟩

instance atLeastTwo_eight : Nat.AtLeastTwo 8 := ⟨by decide⟩

end Resampler

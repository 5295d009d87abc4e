import Resampler.Source

/-!
Instrumented sources, for watching what a stage asks of the source below it
and for making that source fail.
-/

namespace Resampler.Source

variable {σ : Type}

/-- A source that keeps a log of the rows of its successful requests. -/
structure Logged (σ : Type) where
  inner : σ
  rows : Array UInt32

/-- The rows from `y` on, as many as a request of height `n` names. -/
def rowsFrom (y : UInt32) (n : Nat) : List UInt32 :=
  (List.range n).map fun i => y + UInt32.ofNat i

/-- Logs every row of every request that succeeds. -/
def logged (src : Source σ) : Source (Logged σ) where
  size := src.size
  format := src.format
  copy q buffer s :=
    let reply := src.copy q buffer s.inner
    match reply.result with
    | .error e => ⟨.error e, reply.buffer, { s with inner := reply.state }, reply.events⟩
    | .ok () =>
      ⟨.ok (), reply.buffer,
        ⟨reply.state, s.rows ++ rowsFrom q.region.y q.region.height.toNat⟩, reply.events⟩
  size_copy q buffer s := by
    dsimp only
    split <;> exact src.size_copy ..

/-- The number of rows in the log. -/
def Logged.fetches (s : Logged σ) : Nat := s.rows.size

/-- The number of different rows in the log. -/
def Logged.distinct (s : Logged σ) : Nat := s.rows.toList.eraseDups.length

/-- A source that fails a number of times. -/
structure Failing (σ : Type) where
  inner : σ
  remaining : Nat
  failures : Nat

/-- Fails the requests that include `row` as long as failures remain. -/
def failing (src : Source σ) (row : UInt32) : Source (Failing σ) where
  size := src.size
  format := src.format
  copy q buffer s :=
    if 0 < s.remaining ∧ q.region.y ≤ row ∧ row < q.region.y + q.region.height then
      ⟨.error (.error (.other ("read error at row " ++ toString row.toNat))), buffer,
        { s with remaining := s.remaining - 1, failures := s.failures + 1 },
        [.injectedFailure row]⟩
    else
      let reply := src.copy q buffer s.inner
      ⟨reply.result, reply.buffer, { s with inner := reply.state }, reply.events⟩
  size_copy q buffer s := by
    dsimp only
    split
    · rfl
    · exact src.size_copy ..

end Resampler.Source

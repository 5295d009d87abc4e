import Resampler.Proofs.Source.Serving
import Resampler.Source.Instrumented

/-!
Whole rows fetched from a source.

A stage takes from its source one whole row after the other and stops at the first that
fails. `fetchRows` is this on its own, without the stage: it keeps the rows that came
before the failure, and the state in which the source was left. `fetchRows_rule` lifts what is
known of single rows to all of them, with a property of the source that may move on
from row to row; the rules for the instrumented sources say what a log and an
injected failure add to the source behind them.
-/

namespace Resampler.Source

variable {σ : Type} {src : Source σ}

/-- The rows that were fetched, the failure that ended it if there was one, and the state after
it. -/
structure Fetched (σ : Type) where
  rows : List Bytes
  result : Except Failure Unit
  state : σ

/-- Fetches `n` whole rows from row `y` on, until one fails. -/
def fetchRows (src : Source σ) (y : Nat) : Nat → σ → Fetched σ
  | 0, s => ⟨[], .ok (), s⟩
  | n + 1, s =>
    let step := src.fetchRow y s
    match step.result with
    | .error e => ⟨[], .error e, step.state⟩
    | .ok row =>
      let rest := src.fetchRows (y + 1) n step.state
      ⟨row :: rest.rows, rest.result, rest.state⟩

theorem fetchRows_of_error {y n : Nat} {s : σ} {e : Failure}
    (h : (src.fetchRow y s).result = .error e) :
    src.fetchRows y (n + 1) s = ⟨[], .error e, (src.fetchRow y s).state⟩ := by
  simp only [fetchRows, h]

theorem fetchRows_of_ok {y n : Nat} {s : σ} {row : Bytes}
    (h : (src.fetchRow y s).result = .ok row) :
    src.fetchRows y (n + 1) s =
      let rest := src.fetchRows (y + 1) n (src.fetchRow y s).state
      ⟨row :: rest.rows, rest.result, rest.state⟩ := by
  simp only [fetchRows, h]

theorem size_of_mem_fetchRows {y n : Nat} {s : σ} {row : Bytes}
    (h : row ∈ (src.fetchRows y n s).rows) : row.size = src.format.rowBytes src.size.width := by
  induction n generalizing y s with
  | zero => cases h
  | succ n ih =>
    cases hr : (src.fetchRow y s).result with
    | error e =>
      rw [fetchRows_of_error hr] at h
      cases h
    | ok first =>
      rw [fetchRows_of_ok hr] at h
      rcases List.mem_cons.mp h with rfl | hrest
      · exact size_of_fetchRow hr
      · exact ih hrest

/-- A property that each fetched row moves on by one holds where the fetching ends: behind the
last row if all were fetched, and otherwise at the row that failed. -/
theorem fetchRows_rule (P : Nat → σ → Prop) (bad : Nat → Failure → σ → Prop) {y n : Nat}
    (hstep : ∀ z, y ≤ z → z < y + n →
      (src.fetchRow z).Ensures (P z) (fun _ => P (z + 1)) (bad z))
    {s : σ} (hs : P y s) :
    match (src.fetchRows y n s).result with
    | .ok _ => (src.fetchRows y n s).rows.length = n ∧ P (y + n) (src.fetchRows y n s).state
    | .error e => (src.fetchRows y n s).rows.length < n ∧
        bad (y + (src.fetchRows y n s).rows.length) e (src.fetchRows y n s).state := by
  -- on the number of rows that are left; the property stands at the first of them
  induction n generalizing y s with
  | zero => exact ⟨rfl, hs⟩
  | succ n ih =>
    have hfirst := hstep y le_rfl (by omega)
    cases hr : (src.fetchRow y s).result with
    | error e =>
      rw [fetchRows_of_error hr]
      exact ⟨Nat.succ_pos n, hfirst.error hs hr⟩
    | ok row =>
      have hrest := ih (fun z hlo hhi => hstep z (by omega) (by omega)) (hfirst.ok hs hr)
      rw [fetchRows_of_ok hr]
      generalize src.fetchRows (y + 1) n (src.fetchRow y s).state = rest at hrest ⊢
      simp only [List.length_cons]
      cases hres : rest.result with
      | ok _ =>
        rw [hres] at hrest
        rw [show y + (n + 1) = y + 1 + n by omega]
        exact ⟨congrArg _ hrest.1, hrest.2⟩
      | error e =>
        rw [hres] at hrest
        rw [show y + (rest.rows.length + 1) = y + 1 + rest.rows.length by omega]
        exact ⟨Nat.succ_lt_succ hrest.1, hrest.2⟩

theorem length_fetchRows_of_ok {y n : Nat} {s : σ} {u : Unit}
    (h : (src.fetchRows y n s).result = .ok u) : (src.fetchRows y n s).rows.length = n := by
  induction n generalizing y s with
  | zero => rfl
  | succ n ih =>
    cases hr : (src.fetchRow y s).result with
    | error e =>
      rw [fetchRows_of_error hr] at h
      cases h
    | ok row =>
      rw [fetchRows_of_ok hr] at h ⊢
      exact congrArg Nat.succ (ih h)

theorem length_fetchRows_le (src : Source σ) (y n : Nat) (s : σ) :
    (src.fetchRows y n s).rows.length ≤ n := by
  induction n generalizing y s with
  | zero => exact le_rfl
  | succ n ih =>
    cases hr : (src.fetchRow y s).result with
    | error e =>
      rw [fetchRows_of_error hr]
      exact Nat.zero_le _
    | ok row =>
      rw [fetchRows_of_ok hr]
      exact Nat.succ_le_succ (ih _ _)

/-- Where the fetching of rows fails, it fails with the failure of one of them. -/
theorem exists_of_fetchRows_error {y n : Nat} {s : σ} {e : Failure}
    (h : (src.fetchRows y n s).result = .error e) :
    ∃ z s', y ≤ z ∧ z < y + n ∧ (src.fetchRow z s').result = .error e ∧
      (src.fetchRows y n s).state = (src.fetchRow z s').state := by
  have hrule := fetchRows_rule (fun _ _ => True)
    (fun z e after => ∃ s', (src.fetchRow z s').result = .error e ∧
      after = (src.fetchRow z s').state) (y := y) (n := n)
    (fun z _ _ s' _ => by
      cases hr : (src.fetchRow z s').result with
      | ok _ => trivial
      | error e => exact ⟨s', hr, rfl⟩) (s := s) trivial
  rw [h] at hrule
  obtain ⟨hlt, s', hfail, hstate⟩ := hrule
  exact ⟨_, s', Nat.le_add_right _ _, by omega, hfail, hstate⟩

theorem length_fetchRows_lt_of_error {y n : Nat} {s : σ} {e : Failure}
    (h : (src.fetchRows y n s).result = .error e) : (src.fetchRows y n s).rows.length < n := by
  have hrule := fetchRows_rule (fun _ _ => True) (fun _ _ _ => True) (y := y) (n := n)
    (fun z _ _ => (src.fetchRow z).ensures_true) (s := s) trivial
  rw [h] at hrule
  exact hrule.1

/-- Fetching rows is asking for them. -/
theorem Reaches.fetchRows {s₀ s : σ} (h : src.Reaches s₀ s) (y n : Nat) :
    src.Reaches s₀ (src.fetchRows y n s).state := by
  induction n generalizing y s with
  | zero => exact h
  | succ n ih =>
    have hfirst : src.Reaches s₀ (src.fetchRow y s).state := h.copy _ _
    cases hr : (src.fetchRow y s).result with
    | error e =>
      rw [fetchRows_of_error hr]
      exact hfirst
    | ok row =>
      rw [fetchRows_of_ok hr]
      exact ih hfirst (y + 1)

/-- Each row that is fetched was given in a state that requests lead to. -/
theorem Reaches.exists_fetchRow {s₀ s : σ} (h : src.Reaches s₀ s) {y n i : Nat}
    (hi : i < (src.fetchRows y n s).rows.length) :
    ∃ s', src.Reaches s₀ s' ∧
      (src.fetchRow (y + i) s').result = .ok (src.fetchRows y n s).rows[i] := by
  induction n generalizing y s i with
  | zero => exact absurd hi (Nat.not_lt_zero i)
  | succ n ih =>
    cases hr : (src.fetchRow y s).result with
    | error e =>
      rw [fetchRows_of_error hr] at hi
      exact absurd hi (Nat.not_lt_zero i)
    | ok row =>
      simp only [fetchRows_of_ok hr] at hi ⊢
      cases i with
      | zero => exact ⟨s, h, hr⟩
      | succ i =>
        rw [show y + (i + 1) = y + 1 + i by omega]
        exact ih (h.copy _ _) (Nat.lt_of_succ_lt_succ hi)

/-! Instrumented sources. -/

variable {pre : σ → Prop} {post : Bytes → σ → Prop} {bad : Failure → σ → Prop} {y : Nat}

@[simp] theorem size_logged (src : Source σ) : src.logged.size = src.size := rfl

/-- A log gains the rows that are fetched, and no others. -/
theorem fetchRow_logged (h : (src.fetchRow y).Ensures pre post bad) (log : Array UInt32) :
    (src.logged.fetchRow y).Ensures (fun s => pre s.inner ∧ s.rows = log)
      (fun row s => post row s.inner ∧ s.rows = log.push (UInt32.ofNat y))
      fun e s => bad e s.inner ∧ s.rows = log := by
  rintro s ⟨hs, rfl⟩
  have hinner := h s.inner hs
  simp only [fetchRow, logged] at hinner ⊢
  generalize src.copy _ _ s.inner = reply at hinner ⊢
  cases hr : reply.result with
  | error e =>
    rw [hr] at hinner
    exact ⟨hinner, rfl⟩
  | ok _ =>
    rw [hr] at hinner
    refine ⟨hinner, ?_⟩
    simp [rowsFrom, Region.line]

/-- The numbers of the rows in a log. -/
def Logged.numbers (s : Logged σ) : List Nat := s.rows.toList.map UInt32.toNat

/-- The log of any source, whatever it gives, gains the number of the row that is fetched. -/
theorem numbers_fetchRow_logged (src : Source σ) (hy : y < src.size.height.toNat)
    (numbers : List Nat) :
    (src.logged.fetchRow y).Ensures (fun s => s.numbers = numbers)
      (fun _ s => s.numbers = numbers ++ [y]) fun _ s => s.numbers = numbers := by
  refine Pull.Ensures.of_state fun s hs => ?_
  refine (fetchRow_logged (src.fetchRow y).ensures_true s.rows).weaken ?_ (fun _ s' h => ?_)
    fun _ s' h => ?_
  · rintro _ rfl
    exact ⟨trivial, rfl⟩
  · simp [Logged.numbers, h.2, ← hs, toNat_ofNat_of_le (Nat.le_of_lt hy)]
  · rw [Logged.numbers, h.2]
    exact hs

/-- Rows that were all fetched are all in the log. -/
theorem mem_numbers_fetchRows_logged {n : Nat} {s : Logged σ} {u : Unit}
    (hheight : y + n ≤ src.size.height.toNat)
    (hok : (src.logged.fetchRows y n s).result = .ok u) (z : Nat) :
    z ∈ (src.logged.fetchRows y n s).state.numbers ↔ z ∈ s.numbers ∨ (y ≤ z ∧ z < y + n) := by
  have hrule := fetchRows_rule
    (fun i (t : Logged σ) => ∀ z, z ∈ t.numbers ↔ z ∈ s.numbers ∨ (y ≤ z ∧ z < i))
    (fun _ _ _ => True) (y := y) (n := n) (s := s)
    (fun i hlo hhi => Pull.Ensures.of_state fun t ht => by
      refine (src.numbers_fetchRow_logged (by omega) t.numbers).weaken ?_ (fun _ t' h => ?_)
        fun _ _ _ => trivial
      · rintro _ rfl
        rfl
      · intro z
        rw [h, List.mem_append, List.mem_singleton, ht, or_assoc]
        exact or_congr_right (by omega))
    (fun z => (or_iff_left (by omega)).symm)
  rw [hok] at hrule
  exact hrule.2 z

/-- The failure that is injected at a row. -/
def readError (row : UInt32) : Failure :=
  .error (.other ("read error at row " ++ toString row.toNat))

/-- Failures are injected where the row itself is fetched, as long as there are any left. -/
theorem fetchRow_failing (row : UInt32) (h : (src.fetchRow y).Ensures pre post bad)
    (hy : y < src.size.height.toNat) (n : Nat) :
    ((src.failing row).fetchRow y).Ensures (fun s => pre s.inner ∧ s.remaining = n)
      (fun bytes s => post bytes s.inner ∧ s.remaining = n ∧ (y = row.toNat → n = 0))
      fun e s => bad e s.inner ∧ s.remaining = n ∨
        pre s.inner ∧ y = row.toNat ∧ e = readError row ∧ s.remaining + 1 = n := by
  rintro s ⟨hs, rfl⟩
  have hheight := src.size.height.toNat_lt
  have hplace : (UInt32.ofNat y).toNat = y := toNat_ofNat_of_le (Nat.le_of_lt hy)
  -- a line names the one row `y`, whose number is followed by another
  have hnamed : (UInt32.ofNat y ≤ row ∧ row < UInt32.ofNat y + 1) ↔ y = row.toNat := by
    rw [UInt32.le_iff_toNat_le, UInt32.lt_iff_toNat_lt, UInt32.toNat_add, hplace,
      show (1 : UInt32).toNat = 1 from rfl, Nat.mod_eq_of_lt (by omega)]
    omega
  have hinner := h s.inner hs
  simp only [fetchRow, failing, Region.line, hnamed] at hinner ⊢
  by_cases hfail : 0 < s.remaining ∧ y = row.toNat
  · rw [if_pos hfail]
    exact .inr ⟨hs, hfail.2, rfl, by simp only; omega⟩
  · rw [if_neg hfail]
    generalize src.copy _ _ s.inner = reply at hinner ⊢
    cases hr : reply.result with
    | error e =>
      rw [hr] at hinner
      exact .inl ⟨hinner, rfl⟩
    | ok _ =>
      rw [hr] at hinner
      exact ⟨hinner, rfl, fun hyrow => by omega⟩

variable {I : σ → Prop} {rows : Nat → Bytes} {faults : Failure → Prop}

/-- A log changes nothing of what a source gives. -/
theorem Gives.logged (h : src.Gives I rows faults) :
    src.logged.Gives (fun s => I s.inner) rows faults := by
  intro y hy
  refine Pull.Ensures.of_state fun s hs => ?_
  refine (fetchRow_logged (h y hy) s.rows).weaken ?_ (fun _ _ h => h.1) fun _ _ h => h.1
  rintro _ rfl
  exact ⟨hs, rfl⟩

/-- Injected failures change nothing of the rows that a source gives. -/
theorem Gives.failing (h : src.Gives I rows faults) (row : UInt32) :
    (src.failing row).Gives (fun s => I s.inner) rows fun e => faults e ∨ e = readError row := by
  intro y hy
  refine Pull.Ensures.of_state fun s hs => ?_
  refine (fetchRow_failing row (h y hy) hy s.remaining).weaken ?_ (fun _ _ h => h.1) fun e s' h => ?_
  · rintro _ rfl
    exact ⟨hs, rfl⟩
  · rcases h with ⟨h, -⟩ | ⟨hI, -, rfl, -⟩
    · exact ⟨.inl h.1, h.2⟩
    · exact ⟨.inr rfl, hI⟩

/-- What a source gives in all states, it gives in those that requests lead to. -/
theorem Gives.steady (h : src.Gives (fun _ => True) rows faults) (s₀ : σ) :
    src.Steady s₀ rows :=
  fun _ _ y hy _ hrow => ((h y hy).ok trivial hrow).1

end Resampler.Source

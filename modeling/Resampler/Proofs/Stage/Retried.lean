import Resampler.Proofs.Stage.Ordered

/-!
Requests that are issued again until they succeed.

A failed load keeps the rows that it got, so the next attempt begins with the row that could not
be read. If that row can be read at last, nothing that was read before has to be read again, and
the caller has seen as many failures as there were, and then the rows that an undisturbed source
would have given. `Source.Insists` and `Source.Reads` say what such a caller does. They are
relations, since nothing in them promises that the attempts come to an end; that they do for an
image behind a failing source is proved here, by counting the failures that remain.
-/

namespace Resampler

namespace Source

variable {σ : Type} {src : Source σ}

/-- What came of reading: what was read, the failures in between, and the state after it. -/
structure Reading (σ β : Type) where
  value : β
  failures : List Failure
  state : σ

/-- The same request is issued again, with the buffer as it then is, until it succeeds. -/
inductive Insists (src : Source σ) (q : Request) : Bytes → σ → Reading σ Bytes → Prop
  | done {buffer : Bytes} {s : σ} (h : (src.copy q buffer s).result = .ok ()) :
      Insists src q buffer s ⟨(src.copy q buffer s).buffer, [], (src.copy q buffer s).state⟩
  | again {buffer : Bytes} {s : σ} {e : Failure} {rest : Reading σ Bytes}
      (h : (src.copy q buffer s).result = .error e)
      (hrest : Insists src q (src.copy q buffer s).buffer (src.copy q buffer s).state rest) :
      Insists src q buffer s { rest with failures := e :: rest.failures }

/-- Whole rows are read one at a time, each into a blank buffer and each until it succeeds. -/
inductive Reads (src : Source σ) : List Nat → σ → Reading σ (List Bytes) → Prop
  | nil {s : σ} : Reads src [] s ⟨[], [], s⟩
  | cons {y : Nat} {ys : List Nat} {s : σ} {row : Reading σ Bytes} {rest : Reading σ (List Bytes)}
      (hrow : src.Insists ⟨Region.line src.size.width y, src.format.rowBytes src.size.width⟩
        (Array.replicate (src.format.rowBytes src.size.width) 0) s row)
      (hrest : Reads src ys row.state rest) :
      Reads src (y :: ys) s
        ⟨row.value :: rest.value, row.failures ++ rest.failures, rest.state⟩

/-- There is only one way in which the attempts can go. -/
theorem Insists.unique {q : Request} {buffer : Bytes} {s : σ} {r r' : Reading σ Bytes}
    (h : src.Insists q buffer s r) (h' : src.Insists q buffer s r') : r = r' := by
  induction h generalizing r' with
  | done h =>
    cases h' with
    | done _ => rfl
    | again h' _ => cases h.symm.trans h'
  | again h _ ih =>
    cases h' with
    | done h' => cases h.symm.trans h'
    | again h' hrest' =>
      cases h.symm.trans h'
      rw [ih hrest']

theorem Reads.unique {ys : List Nat} {s : σ} {r r' : Reading σ (List Bytes)}
    (h : src.Reads ys s r) (h' : src.Reads ys s r') : r = r' := by
  induction h generalizing r' with
  | nil =>
    cases h'
    rfl
  | cons hrow _ ih =>
    cases h' with
    | cons hrow' hrest' =>
      cases hrow.unique hrow'
      cases ih hrest'
      rfl

/-- Where nothing can fail, rows are read at the first attempt. -/
theorem Serves.reads {I : σ → Prop} {rows : Nat → Bytes} (h : src.Serves I rows fun _ => False)
    {y n : Nat} (hn : y + n ≤ src.size.height.toNat) {s : σ} (hs : I s) :
    ∃ s', src.Reads (List.range' y n) s ⟨(List.range' y n).map rows, [], s'⟩ := by
  induction n generalizing y s with
  | zero => exact ⟨s, .nil⟩
  | succ n ih =>
    have hy : y < src.size.height.toNat := by omega
    have hblank : (Array.replicate (src.format.rowBytes src.size.width) (0 : UInt8)).size =
        src.format.rowBytes src.size.width := Array.size_replicate
    have hok := h.serves_all hs (check_line src.format hy hblank)
    obtain ⟨s', hrest⟩ := ih (y := y + 1) (by omega) (h.keeps _ _ hs)
    have hrow := h.buffer_of_line hs hy hblank rfl hok
    have hreads := Reads.cons (.done hok) hrest
    rw [hrow] at hreads
    exact ⟨s', hreads⟩

/-- What fetching a row through a log and injected failures comes to, for the failures that
remain. -/
theorem remaining_fetchRow (img : Image) (row : UInt32) {y : Nat}
    (hy : y < img.size.height.toNat) (n : Nat) :
    (((img.source : Source σ).failing row).logged.fetchRow y).Ensures
      (fun s => s.inner.remaining = n)
      (fun _ s => s.inner.remaining = n ∧ (y = row.toNat → n = 0))
      fun e s => y = row.toNat ∧ e = readError row ∧ s.inner.remaining + 1 = n := by
  refine Pull.Ensures.of_state fun s hs => ?_
  have hgives : (img.source : Source σ).Gives (fun _ => True) img.row fun _ => False :=
    img.serves.gives
  refine (fetchRow_logged (fetchRow_failing row (hgives y hy) hy n) s.rows).weaken ?_
    (fun _ _ h => h.1.2) fun e s' h => ?_
  · rintro _ rfl
    exact ⟨⟨trivial, hs⟩, rfl⟩
  · rcases h.1 with ⟨h, -⟩ | ⟨-, h⟩
    · exact h.1.elim
    · exact h

/-- Rows are fetched through injected failures up to the row that fails, if they get there while
failures remain. -/
theorem remaining_fetchRows {img : Image} {row : UInt32} {y m n : Nat}
    (hheight : y + m ≤ img.size.height.toNat) {s : Logged (Failing σ)}
    (hs : s.inner.remaining = n) {fetch : Fetched (Logged (Failing σ))}
    (hfetch : fetch = ((img.source : Source σ).failing row).logged.fetchRows y m s) :
    match fetch.result with
    | .ok _ => fetch.state.inner.remaining = n ∧ (y ≤ row.toNat → row.toNat < y + m → n = 0)
    | .error e => fetch.rows.length < m ∧ y + fetch.rows.length = row.toNat ∧ e = readError row ∧
        fetch.state.inner.remaining + 1 = n := by
  have hrule := fetchRows_rule (fun z (t : Logged (Failing σ)) => t.inner.remaining = n ∧
      (y ≤ row.toNat → row.toNat < z → n = 0))
    (fun z e (t : Logged (Failing σ)) => z = row.toNat ∧ e = readError row ∧
      t.inner.remaining + 1 = n)
    (y := y) (n := m) (s := s) (fun z hlo hhi => by
      refine Pull.Ensures.assuming (y ≤ row.toNat → row.toNat < z → n = 0) (fun hbefore => ?_)
        fun _ h => h.2
      refine (remaining_fetchRow img row (by omega) n).weaken (fun _ h => h.1)
        (fun _ s' h => ⟨h.1, fun hlo' hhi' => ?_⟩) fun _ _ h => h
      rcases Nat.lt_succ_iff_lt_or_eq.mp hhi' with hlt | heq
      · exact hbefore hlo' hlt
      · exact h.2 heq.symm)
    ⟨hs, fun hlo hhi => by omega⟩
  rw [← hfetch] at hrule
  cases hr : fetch.result with
  | ok _ =>
    rw [hr] at hrule
    exact hrule.2
  | error e =>
    rw [hr] at hrule
    exact hrule

end Source

namespace Stage

variable {α : Type} {stage : Stage α} {img : Image} {row : UInt32} {y n : Nat}
  {s : Resampling.State (Source.Logged (Source.Failing Unit))}

/-- The stage is to make row `y` next, and its source is to fail `n` more times. -/
structure Retrying (stage : Stage α) (img : Image) (row : UInt32) (y n : Nat)
    (s : Resampling.State (Source.Logged (Source.Failing Unit))) : Prop where
  coherent : stage.tables.Coherent (fun _ => True) img.row s
  ahead : stage.Ahead Source.Logged.Before (y ≤ ·) s
  remaining : s.below.inner.remaining = n
  /-- the row that fails is in the window only if no failure remains -/
  past : s.window.start ≤ row.toNat → row.toNat < s.window.stop → n = 0

theorem Retrying.mono (h : stage.Retrying img row y n s) {z : Nat} (hyz : y ≤ z) :
    stage.Retrying img row z n s :=
  ⟨h.coherent, h.ahead.mono fun _ hz => Nat.le_trans hyz hz, h.remaining, h.past⟩

theorem retrying_initial (times : Nat) :
    stage.Retrying img row 0 times (.initial ⟨⟨(), times, 0⟩, #[]⟩) where
  coherent := Resampling.coherent_initial trivial
  ahead := ahead_initial (Source.before_empty _)
  remaining := rfl
  past _ h := absurd h (Nat.not_lt_zero _)

variable {src : Source (Source.Logged (Source.Failing Unit))}
  (hsrc : src = (img.source.failing row).logged) (hseat : stage.Seated src)
  (hasc : stage.tables.vertical.Ascending)
include hsrc hseat

theorem serves_of_failing : (stage.source src).Serves
    (stage.tables.Coherent (fun _ => True) img.row) (stage.picture img.row)
      fun e => False ∨ e = Source.readError row := by
  subst hsrc
  exact hseat.serves (img.serves.gives.failing row).logged

include hasc

/-- An attempt at a row uses up a failure, or it succeeds and leaves none for the rows of its
window. -/
theorem Retrying.loaded (h : stage.Retrying img row y n s)
    (hy : y < stage.tables.size.height.toNat) :
    match (stage.fetchFor src y s).result with
    | .ok _ => stage.Retrying img row y n (stage.loaded src y s) ∧
        (stage.tables.vertical.Covers y row.toNat → n = 0)
    | .error e => e = Source.readError row ∧ stage.tables.vertical.Covers y row.toNat ∧
        ∃ m, m + 1 = n ∧ stage.Retrying img row y m (stage.loaded src y s) := by
  have hwindow := h.ahead.window
  have hco : stage.tables.Coherent (fun _ => True) img.row (stage.loaded src y s) := by
    rw [← (hseat.fetchRow_eq hwindow hy).1]
    exact (serves_of_failing hsrc hseat).keeps _ _ h.coherent
  have hahead : stage.Ahead Source.Logged.Before (y ≤ ·) (stage.loaded src y s) :=
    h.ahead.loaded hseat (hsrc ▸ Source.inOrder_logged _) hasc hy le_rfl fun _ hz => hz
  let w := s.window.moveTo (stage.tables.vertical.window y).start
  have hstop : w.stop = (stage.tables.vertical.window y).start + w.lines.size := rfl
  have hroom : w.lines.size ≤ stage.tables.vertical.tapCount := (hwindow.moveTo _).size_le
  have hheight : w.stop + (stage.tables.vertical.tapCount - w.lines.size) ≤
      img.size.height.toNat := by
    have hinside := hseat.window_le hy
    rw [hsrc] at hinside
    change _ ≤ img.size.height.toNat at hinside
    omega
  -- the rows that the window keeps were read before, and the others are read now
  have hfetch : stage.fetchFor src y s = (img.source.failing row).logged.fetchRows w.stop
      (stage.tables.vertical.tapCount - w.lines.size) s.below := by
    rw [hsrc]
    rfl
  have hrule := Source.remaining_fetchRows hheight h.remaining hfetch
  have hkept : w.start ≤ row.toNat → row.toNat < w.stop → n = 0 := by
    intro hlo hhi
    obtain ⟨hlo', hhi'⟩ := s.window.stop_moveTo_of_mem hlo hhi
    exact h.past hlo' hhi'
  cases hr : (stage.fetchFor src y s).result with
  | ok _ =>
    rw [hr] at hrule
    have hnone : stage.tables.vertical.Covers y row.toNat → n = 0 := by
      rintro ⟨hlo, hhi⟩
      by_cases hbefore : row.toNat < w.stop
      · exact hkept hlo hbefore
      · exact hrule.2 (Nat.le_of_not_lt hbefore) (by omega)
    refine ⟨⟨hco, hahead, hrule.1, fun hlo hhi => hnone ⟨hlo, ?_⟩⟩, hnone⟩
    rw [Band.stop, Stage.loaded, Resampling.size_loaded_of_ok hwindow hr] at hhi
    exact hhi
  | error e =>
    rw [hr] at hrule
    obtain ⟨hshort, hplace, he, hused⟩ := hrule
    refine ⟨he, ⟨by omega, by omega⟩, _, hused, hco, hahead, rfl, fun hlo hhi => ?_⟩
    -- the window ends right before the row that failed
    have hend : (stage.loaded src y s).window.stop =
        w.stop + (stage.fetchFor src y s).rows.length := Resampling.stop_loaded ..
    omega

/-- Attempts at a row come to an end. They give the row of the image, and the failures that they
met are gone. -/
theorem Retrying.insists (h : stage.Retrying img row y n s)
    (hy : y < stage.tables.size.height.toNat) {buffer : Bytes}
    (hsize : buffer.size = stage.tables.format.rowBytes stage.tables.size.width) :
    ∃ r, (stage.source src).Insists ⟨Region.line stage.tables.size.width y,
        stage.tables.format.rowBytes stage.tables.size.width⟩ buffer s r ∧
      r.value = stage.picture img.row y ∧
      ∃ k m, r.failures = List.replicate k (Source.readError row) ∧ k + m = n ∧
        stage.Retrying img row y m r.state ∧
        (stage.tables.vertical.Covers y row.toNat → m = 0) ∧
        (¬stage.tables.vertical.Covers y row.toNat → k = 0) := by
  have hplace : (UInt32.ofNat y).toNat = y := toNat_ofNat_of_le (Nat.le_of_lt hy)
  -- on the failures that remain: each attempt that fails uses up one
  induction n using Nat.strongRecOn generalizing s buffer with
  | _ n ih =>
    have hline := Source.check_line stage.tables.format hy hsize
    obtain ⟨hstate, hresult⟩ := hseat.copy_line_eq hline rfl h.ahead.window
    have hattempt := h.loaded hsrc hseat hasc hy
    simp only [Region.line, hplace] at hstate
    rw [← hstate] at hattempt
    split at hresult
    case h_1 e hfetch =>
      simp only [Region.line, hplace] at hfetch
      rw [hfetch] at hattempt
      obtain ⟨he, hcovers, m, hm, hnext⟩ := hattempt
      obtain ⟨r, hinsists, hvalue, k, m', hfailures, hsum, hretrying, hgone, -⟩ :=
        ih m (by omega) hnext ((Source.size_copy ..).trans hsize)
      refine ⟨_, .again hresult.1 hinsists, hvalue, k + 1, m', ?_, by omega, hretrying, hgone,
        fun hno => (hno hcovers).elim⟩
      rw [hfailures, he]
      rfl
    case h_2 u hfetch =>
      simp only [Region.line, hplace] at hfetch
      rw [hfetch] at hattempt
      refine ⟨_, .done hresult, ?_, 0, n, rfl, Nat.zero_add n, hattempt.1, hattempt.2,
        fun _ => rfl⟩
      exact (serves_of_failing hsrc hseat).buffer_of_line h.coherent (by rwa [size_source])
        (by rwa [size_source, format_source]) (by rw [size_source, format_source]) hresult

/-- Rows that are read one after the other, each at as many attempts as it takes, are those of the
image. The failures are met where the row that fails is needed first, all of them or none. -/
theorem Retrying.reads (h : stage.Retrying img row y n s) {c : Nat}
    (hc : y + c ≤ stage.tables.size.height.toNat) :
    ∃ r, (stage.source src).Reads (List.range' y c) s r ∧
      r.value = (List.range' y c).map (stage.picture img.row) ∧
      ∃ k m, r.failures = List.replicate k (Source.readError row) ∧ k + m = n ∧
        stage.Retrying img row (y + c) m r.state ∧
        ((∃ z ∈ List.range' y c, stage.tables.vertical.Covers z row.toNat) → m = 0) ∧
        ((∀ z ∈ List.range' y c, ¬stage.tables.vertical.Covers z row.toNat) → k = 0) := by
  induction c generalizing y n s with
  | zero =>
    exact ⟨⟨[], [], s⟩, .nil, rfl, 0, n, rfl, Nat.zero_add n, h, fun ⟨_, hz, _⟩ => by simp at hz,
      fun _ => rfl⟩
  | succ c ih =>
    obtain ⟨first, hinsists, hvalue, k, m, hfailures, hsum, hretrying, hgone, hnone⟩ :=
      h.insists hsrc hseat hasc (by omega) Array.size_replicate
    obtain ⟨rest, hreads, hvalues, k', m', hfailures', hsum', hretrying', hgone', hnone'⟩ :=
      ih (hretrying.mono (Nat.le_succ y)) (by omega)
    refine ⟨⟨first.value :: rest.value, first.failures ++ rest.failures, rest.state⟩,
      .cons ?_ hreads, ?_, k + k', m', ?_, by omega, ?_, ?_, ?_⟩
    · rw [size_source, format_source]
      exact hinsists
    · rw [hvalue, hvalues, List.range'_succ, List.map_cons]
    · rw [hfailures, hfailures', List.replicate_append_replicate]
    · rwa [show y + (c + 1) = y + 1 + c by omega]
    · rintro ⟨z, hz, hcovers⟩
      rw [List.range'_succ, List.mem_cons] at hz
      rcases hz with rfl | hz
      · have hzero := hgone hcovers
        omega
      · exact hgone' ⟨z, hz, hcovers⟩
    · intro hno
      rw [List.range'_succ, List.forall_mem_cons] at hno
      rw [hnone hno.1, hnone' hno.2]

end Stage

namespace Chain

variable {α : Type} [Analytic α] {stage : Stage α} {img : Image} {row : UInt32}

/-- Whoever reads the rows of a stage from top to bottom, and asks again for a row that fails until
it is there, gets through with as many failures as the source was to have if a window
contains the row that fails, and with none otherwise. The rows are those that the stage makes of
the image itself, and no row of the source was fetched twice on the way. -/
theorem retries_converge
    (hstage : (base (img.source.failing row).logged :
      Chain α (Source.Logged (Source.Failing Unit))).Takes stage)
    (hasc : ((base (img.source.failing row).logged :
      Chain α (Source.Logged (Source.Failing Unit))).put stage).Ascending)
    (times : Nat) {rows : List Nat} (hrows : rows = List.range stage.tables.size.height.toNat) :
    (∃ run, (stage.source (img.source.failing row).logged).Reads rows
      (.initial ⟨⟨(), times, 0⟩, #[]⟩) run) ∧
    ∀ run, (stage.source (img.source.failing row).logged).Reads rows
        (.initial ⟨⟨(), times, 0⟩, #[]⟩) run →
      ((∃ y ∈ rows, stage.tables.vertical.Covers y row.toNat) →
        run.failures = List.replicate times (Source.readError row)) ∧
      ((¬∃ y ∈ rows, stage.tables.vertical.Covers y row.toNat) → run.failures = []) ∧
      (∃ after : Resampling.State Unit,
        (stage.source img.source).Reads rows (.initial ()) ⟨run.value, [], after⟩) ∧
      run.state.below.numbers.Nodup := by
  have hseat := hstage.seated
  have hstart : stage.Retrying img row 0 times (.initial ⟨⟨(), times, 0⟩, #[]⟩) :=
    Stage.retrying_initial times
  obtain ⟨run, hreads, hvalue, k, m, hfailures, hsum, hretrying, hgone, hnone⟩ :=
    hstart.reads rfl hseat (hstage.ascending hasc) (c := stage.tables.size.height.toNat)
      (by omega)
  rw [← List.range_eq_range', ← hrows] at hreads hvalue hgone hnone
  refine ⟨⟨run, hreads⟩, fun run' hreads' => ?_⟩
  cases hreads.unique hreads'
  refine ⟨fun hneeded => ?_, fun hspared => ?_, ?_, ?_⟩
  · have hzero := hgone hneeded
    rw [hfailures, show k = times by omega]
  · rw [hfailures, hnone fun y hy hcovers => hspared ⟨y, hy, hcovers⟩]
    rfl
  · have hbare : stage.Seated (img.source : Source Unit) := hseat.congr rfl rfl
    obtain ⟨after, hbarely⟩ := (hbare.serves img.serves.gives).reads (y := 0)
      (n := stage.tables.size.height.toNat) (by rw [Stage.size_source]; omega)
      (Resampling.coherent_initial trivial)
    rw [← List.range_eq_range', ← hrows, ← hvalue] at hbarely
    exact ⟨after, hbarely⟩
  · exact hretrying.ahead.below.sorted.imp fun hlt => Nat.ne_of_lt hlt

/-- The second of two rows cannot be read twice, and is there at the third attempt. -/
theorem retries_converge_grey_pair :
    let img : Image := ⟨⟨1, 2⟩, .grey8, #[10, 200], by decide, by decide⟩
    let below : Chain Float (Source.Logged (Source.Failing Unit)) :=
      .base (img.source.failing 1).logged
    ∃ run, (Stage.nearestPair.source below.source).Reads [0, 1] (.initial ⟨⟨(), 2, 0⟩, #[]⟩) run ∧
      run.failures = [Source.readError 1, Source.readError 1] ∧
        (Source.Logged.numbers run.state.below).Nodup := by
  intro img below
  have hstage : below.Takes .nearestPair := takes_nearestPair rfl rfl
  obtain ⟨⟨run, hreads⟩, hall⟩ := retries_converge hstage
    ⟨trivial, Stage.ascending_nearestPair⟩ 2 (rfl : [0, 1] = _)
  obtain ⟨hneeded, -, -, hnodup⟩ := hall run hreads
  exact ⟨run, hreads, hneeded ⟨1, by decide, by decide, by decide⟩, hnodup⟩

end Chain

end Resampler

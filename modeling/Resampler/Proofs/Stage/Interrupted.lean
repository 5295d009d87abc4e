import Resampler.Proofs.Stage.Progress

/-!
Requests that fail.

A request can fail in two ways. Either it is malformed, and then nothing was done for it;
or the source failed while one of its rows was made. The rows before that one are then in
the buffer just as if only they had been asked for, and the row itself has left no trace
there: its pixels are written when all of them are known.
-/

namespace Resampler

namespace Stage

variable {α σ : Type} {stage : Stage α} {below : Source σ}

/-- The first `k` rows of the request were made, and a fetch for the next one failed. -/
structure Interrupts (stage : Stage α) (below : Source σ) (q : Request) (buffer : Bytes)
    (s : Resampling.State σ) (k : Nat) (e : Failure) : Prop where
  lt : k < q.region.height.toNat
  made : ((stage.source below).copy (q.top k) buffer s).result = .ok ()
  failed : (stage.fetchFor below (q.region.y.toNat + k)
    ((stage.source below).copy (q.top k) buffer s).state).result = .error e

/-- Where a request is interrupted, what has been done of it ends with the rows before. -/
theorem Interrupts.lay {q : Request} {buffer : Bytes} {s : Resampling.State σ} {k n : Nat}
    {e : Failure} (h : stage.Interrupts below q buffer s k e)
    (hq : q.check stage.tables.size stage.tables.format buffer.size = .ok n) :
    (stage.lay below q k buffer s).result = .ok () ∧
      (stage.fetchFor below (q.region.y.toNat + k)
        (stage.lay below q k buffer s).state).result = .error e := by
  have htop : (stage.source below).copy (q.top k) buffer s = _ :=
    copy_top hq (Nat.le_of_lt h.lt) s
  have hmade := h.made
  have hfailed := h.failed
  rw [htop] at hmade hfailed
  exact ⟨hmade, hfailed⟩

namespace Seated

variable (hseat : stage.Seated below) {q : Request} {buffer : Bytes} {n : Nat}
  (hq : q.check stage.tables.size stage.tables.format buffer.size = .ok n)
  {s : Resampling.State σ} (hw : stage.tables.Intact s.window)
include hseat hq hw

theorem getElem?_lay {k : Nat} (hk : k ≤ q.region.height.toNat) {i : Nat}
    (hi : ∀ r < k, i < r * q.stride ∨ r * q.stride + n ≤ i) :
    (stage.lay below q k buffer s).buffer[i]? = buffer[i]? := by
  induction k with
  | zero => rfl
  | succ k ih =>
    have hbefore := ih (Nat.le_of_succ_le hk) fun r hr => hi r (Nat.lt_succ_of_lt hr)
    cases hr : (stage.lay below q k buffer s).result with
    | error e => rw [lay_succ_of_error hr, hbefore]
    | ok _ =>
      have hintact := hseat.intact_lay hq (Nat.le_of_succ_le hk) hw
      obtain ⟨-, hresult⟩ := hseat.lay_succ hq hk rfl hr hintact
      split at hresult
      · rw [hresult.2, hbefore]
      · obtain ⟨image, hholds⟩ := (hseat.tables.intact_loaded _ hintact).exists_holds
        rw [Bytes.getElem?_of_blit? (hresult.2 image hholds), if_neg, hbefore]
        obtain ⟨-, rfl, -⟩ := Request.check_eq_ok_iff.mp hq
        rw [hseat.tables.fits.size_run]
        have := hi k (Nat.lt_succ_self k)
        omega

/-- A row that cannot be made ends the request, and the buffer stays as it is. -/
theorem lay_of_interrupts {k : Nat} {e : Failure}
    (h : stage.Interrupts below q buffer s k e) {m : Nat} (hlo : k < m) :
    (stage.lay below q m buffer s).result = .error e ∧
      (stage.lay below q m buffer s).buffer = (stage.lay below q k buffer s).buffer ∧
        (stage.lay below q m buffer s).state =
          stage.loaded below (q.region.y.toNat + k) (stage.lay below q k buffer s).state := by
  obtain ⟨hmade, hfailed⟩ := h.lay hq
  obtain ⟨hstate, hresult⟩ :=
    hseat.lay_succ hq h.lt rfl hmade (hseat.intact_lay hq (Nat.le_of_lt h.lt) hw)
  rw [hfailed] at hresult
  -- from the row that failed on, nothing is added
  induction m, hlo using Nat.le_induction with
  | base => exact ⟨hresult.1, hresult.2, hstate⟩
  | succ m _ ih => rwa [lay_succ_of_error ih.1]

/-- An accepted request fails only because the source failed while one of its rows was made. -/
theorem exists_interrupts {m : Nat} (hm : m ≤ q.region.height.toNat) {e : Failure}
    (h : (stage.lay below q m buffer s).result = .error e) :
    ∃ k, stage.Interrupts below q buffer s k e := by
  induction m with
  | zero => cases h
  | succ m ih =>
    have hm' := Nat.le_of_succ_le hm
    cases hr : (stage.lay below q m buffer s).result with
    | error e' =>
      rw [lay_succ_of_error hr] at h
      exact ih hm' h
    | ok _ =>
      obtain ⟨-, hresult⟩ := hseat.lay_succ hq hm rfl hr (hseat.intact_lay hq hm' hw)
      split at hresult
      case h_1 e' hfailed =>
        rw [hresult.1] at h
        cases h
        refine ⟨m, hm, ?_, ?_⟩
        · rw [copy_top hq hm']
          exact hr
        · rw [copy_top hq hm']
          exact hfailed
      case h_2 =>
        rw [hresult.1] at h
        cases h

end Seated

/-- The rows of an answered request are those of the stage's image, in every state that requests
and failures lead to. -/
theorem Seated.slice?_copy (hseat : stage.Seated below) {s₀ : σ} {rows : Nat → Bytes}
    (hsteady : below.Steady s₀ rows) (asked : List (Request × Bytes)) {q : Request}
    {buffer : Bytes} {reply : Reply (Resampling.State σ)}
    (hreply : reply = (stage.source below).copy q buffer
      ((stage.source below).after (.initial s₀) asked))
    (hok : reply.result = .ok ()) {r : Nat} (hr : r < q.region.height.toNat) :
    reply.buffer.slice? (r * q.stride) (stage.tables.format.rowBytes q.region.width) =
      some (q.rowsOf stage.tables.format (stage.picture rows) r) := by
  have hserves := hseat.serves hsteady.gives
  have hco := hserves.keeps_after (Resampling.coherent_initial (Source.reaches_self _ s₀))
    ⟨asked, rfl⟩
  subst hreply
  obtain ⟨n, hq⟩ := hserves.check_of_ok hco hok
  obtain ⟨-, rfl, -⟩ := Request.check_eq_ok_iff.mp hq
  have hrow := (hserves.done hco hq hok).row r (Nat.zero_le r) hr
  rwa [Stage.format_source] at hrow

end Stage

namespace Chain

variable {α σ : Type} [Analytic α] {below : Chain α σ} {stage : Stage α}

theorem Takes.slice?_copy (hstage : below.Takes stage) {s₀ : below.State} {rows : Nat → Bytes}
    (hsteady : below.source.Steady s₀ rows) (asked : List (Request × Bytes)) {q : Request}
    {buffer : Bytes} {reply : Reply (Resampling.State below.State)}
    (hreply : reply = (stage.source below.source).copy q buffer
      ((stage.source below.source).after (.initial s₀) asked))
    (hok : reply.result = .ok ()) {r : Nat} (hr : r < q.region.height.toNat) :
    reply.buffer.slice? (r * q.stride) (stage.tables.format.rowBytes q.region.width) =
      some (q.rowsOf stage.tables.format (stage.picture rows) r) :=
  hstage.seated.slice?_copy hsteady asked hreply hok hr

/-- What a failed request leaves behind, in every state that requests and failures lead to. A
malformed request changes nothing at all. Any other fails just where a fetch from the source
fails, and with the same failure: it has then written the rows before the one that the fetch
was for, as the request for these rows alone would have, and no other byte. If the source gives
the rows of one image, these are the bytes that an answered request has there, whenever it
was answered. -/
theorem copy_interrupted (hstage : below.Takes stage) {s₀ : below.State}
    (asked : List (Request × Bytes)) {q : Request} {buffer : Bytes}
    {s : Resampling.State below.State}
    (hs : s = (stage.source below.source).after (.initial s₀) asked)
    {reply : Reply (Resampling.State below.State)}
    (hreply : reply = (stage.source below.source).copy q buffer s) :
    (∀ cause, q.check stage.tables.size stage.tables.format buffer.size = .error cause →
      reply = ⟨.error (.error cause), buffer, s, []⟩) ∧
    ∀ n, q.check stage.tables.size stage.tables.format buffer.size = .ok n →
      (∀ e, reply.result = .error e ↔ ∃ k, stage.Interrupts below.source q buffer s k e) ∧
      ∀ k e, stage.Interrupts below.source q buffer s k e →
        (∃ z s', (stage.tables.vertical.window (q.region.y.toNat + k)).start ≤ z ∧
          z < (stage.tables.vertical.window (q.region.y.toNat + k)).start +
            stage.tables.vertical.tapCount ∧
          (below.source.fetchRow z s').result = .error e ∧
            reply.state.below = (below.source.fetchRow z s').state) ∧
        reply.buffer = ((stage.source below.source).copy (q.top k) buffer s).buffer ∧
        reply.buffer.size = buffer.size ∧
        (∀ i, (∀ r < k, i < r * q.stride ∨ r * q.stride + n ≤ i) →
          reply.buffer[i]? = buffer[i]?) ∧
        ∀ rows, below.source.Steady s₀ rows → ∀ r < k,
          reply.buffer.slice? (r * q.stride) n =
              some (q.rowsOf stage.tables.format (stage.picture rows) r) ∧
            ∀ asked' buffer' reply', reply' = (stage.source below.source).copy q buffer'
                ((stage.source below.source).after (.initial s₀) asked') →
              reply'.result = .ok () →
                reply.buffer.slice? (r * q.stride) n = reply'.buffer.slice? (r * q.stride) n := by
  have hseat := hstage.seated
  have hw : stage.tables.Intact s.window := by
    rw [hs]
    exact hseat.intact_after asked Resampling.intact_empty
  subst hreply
  refine ⟨fun cause hq => Stage.copy_of_check_error hq s, fun n hq => ⟨fun e => ?_, ?_⟩⟩
  · rw [Stage.copy_eq hq]
    constructor
    · exact hseat.exists_interrupts hq hw le_rfl
    · rintro ⟨k, h⟩
      exact (hseat.lay_of_interrupts hq hw h h.lt).1
  intro k e h
  have hk := Nat.le_of_lt h.lt
  obtain ⟨-, hbuffer, hstate⟩ := hseat.lay_of_interrupts hq hw h h.lt
  have htop : (stage.source below.source).copy (q.top k) buffer s = _ := Stage.copy_top hq hk s
  have hcopy : (stage.source below.source).copy q buffer s = _ := Stage.copy_eq hq s
  have hsame : ((stage.source below.source).copy q buffer s).buffer =
      ((stage.source below.source).copy (q.top k) buffer s).buffer := by
    rw [hcopy, htop]
    exact hbuffer
  have hfailed := h.failed
  rw [htop] at hfailed
  obtain ⟨z, s', hlo, hhi, hfail, hbelow⟩ :=
    Resampling.exists_of_fetchFor_error (hseat.intact_lay hq hk hw) hfailed
  refine ⟨⟨z, s', hlo, hhi, hfail, ?_⟩, hsame, Source.size_copy .., fun i hi => ?_,
    fun rows hsteady r hr => ?_⟩
  · rw [hcopy, ← hbelow]
    exact congrArg Resampling.State.below hstate
  · rw [hsame, htop]
    exact hseat.getElem?_lay hq hw hk hi
  · obtain ⟨-, rfl, -⟩ := Request.check_eq_ok_iff.mp hq
    have hrow := hstage.slice?_copy hsteady asked
      (congrArg ((stage.source below.source).copy (q.top k) buffer) hs) h.made
      (by rwa [Request.height_top hk])
    rw [hsame]
    refine ⟨hrow, fun asked' buffer' reply' hreply' hok' => ?_⟩
    exact hrow.trans (hstage.slice?_copy hsteady asked' hreply' hok'
      (Nat.lt_trans hr h.lt)).symm

/-- Two rows are asked for with a byte of padding, and the second cannot be read. -/
theorem copy_interrupted_grey_pair :
    let img : Image := ⟨⟨1, 2⟩, .grey8, #[10, 200], by decide, by decide⟩
    let below : Chain Float (Source.Failing Unit) := .base (img.source.failing 1)
    let reply := (Stage.nearestPair.source below.source).copy ⟨⟨0, 0, 1, 2⟩, 2⟩ #[1, 2, 3]
      (.initial ⟨(), 1, 0⟩)
    below.Takes .nearestPair ∧ reply.result = .error (Source.readError 1) ∧
      reply.buffer.slice? 0 1 = some (Stage.nearestPair.picture img.row 0) ∧
        reply.buffer[1]? = some 2 ∧ reply.buffer[2]? = some 3 := by
  intro img below reply
  have hstage : below.Takes .nearestPair := takes_nearestPair rfl rfl
  have hq : (Request.mk ⟨0, 0, 1, 2⟩ 2).check Stage.nearestPair.tables.size
      Stage.nearestPair.tables.format (#[1, 2, 3] : Bytes).size = .ok 1 := rfl
  have hsecond : Stage.nearestPair.Interrupts below.source ⟨⟨0, 0, 1, 2⟩, 2⟩ #[1, 2, 3]
      (.initial ⟨(), 1, 0⟩) 1 (Source.readError 1) :=
    ⟨by decide, by decide +kernel, by decide +kernel⟩
  obtain ⟨-, haccepted⟩ := copy_interrupted hstage [] rfl (rfl : reply = reply)
  obtain ⟨hfails, hrest⟩ := haccepted 1 hq
  obtain ⟨-, -, -, hframe, hrows⟩ := hrest 1 _ hsecond
  have hgives : below.source.Gives (fun _ => True) img.row _ := img.serves.gives.failing 1
  refine ⟨hstage, (hfails _).mpr ⟨1, hsecond⟩, ?_, ?_, ?_⟩
  · exact (hrows img.row (hgives.steady _) 0 (by decide)).1
  · exact hframe 1 (by decide)
  · exact hframe 2 (by decide)

end Chain

end Resampler

import Resampler.Proofs.Pixel.Rows
import Resampler.Proofs.Pull

/-!
What a source serves.

A source is a machine with a state of its own, and what it answers may depend on
everything it was asked before. The statements here take that dependence away. A
source `Gives` rows if, in all states of an invariant, a whole row that it hands
out is the one that a fixed image has there; it `Serves` them if that also holds of
every part of a row and the answer to a request is exact down to the last byte of
the caller's buffer. `faults` collects the failures that may come in between: a
source that never fails has none, and a stage has those of the source below it.

`serves_ofRows` turns a contract for single rows into one for requests, and
`Serves.gives` turns it back, so that stages can be put on top of each other.
-/

namespace Resampler

namespace Request

/-- A request passes the check if its rectangle lies in the image, its rows do not overlap, and
the buffer, whose length is a word, has room for them. -/
theorem check_eq_ok_iff {q : Request} {size : Size} {format : PixelFormat} {bufferSize n : Nat} :
    q.check size format bufferSize = .ok n ↔
      (Region.ofSize size).contains q.region ∧ n = format.rowBytes q.region.width ∧ n ≤ q.stride ∧
        q.required n < Word.limit64 ∧ q.required n ≤ bufferSize := by
  constructor
  · intro h
    unfold check at h
    simp only at h
    split at h
    · cases h
    · split at h
      · cases h
      · split at h
        · cases h
        · split at h
          · cases h
          · simp only [Except.ok.injEq] at h
            subst h
            simp_all
  · rintro ⟨hin, rfl, hstride, hword, hroom⟩
    unfold check
    simp only
    rw [if_neg (by simp [hin]), if_neg (by omega), if_neg (by omega), if_neg (by omega)]

/-- What is wrong with a request is never an error of some other kind. -/
theorem check_ne_other {q : Request} {size : Size} {format : PixelFormat} {bufferSize : Nat}
    {text : String} : q.check size format bufferSize ≠ .error (.other text) := by
  unfold check
  simp only
  intro h
  repeat' split at h
  all_goals cases h

end Request

/-- The whole of the `n` rows from row `y` on. -/
def Region.rows (width : UInt32) (y n : Nat) : Region := ⟨0, UInt32.ofNat y, width, UInt32.ofNat n⟩

theorem Region.line_eq_rows (width : UInt32) (y : Nat) : line width y = rows width y 1 := rfl

theorem Region.ofSize_eq_rows (size : Size) :
    ofSize size = rows size.width 0 size.height.toNat := by
  rw [rows, UInt32.ofNat_toNat]
  rfl

theorem toNat_ofNat_of_le {n : Nat} {height : UInt32} (h : n ≤ height.toNat) :
    (UInt32.ofNat n).toNat = n := by
  have hlt := height.toNat_lt
  rw [UInt32.toNat_ofNat']
  exact Nat.mod_eq_of_lt (by omega)

namespace Request

variable {size : Size} {format : PixelFormat} {y n : Nat}

/-- A request for whole rows without padding passes the check if their bytes can be counted and
the buffer has room for them. -/
theorem check_rows (format : PixelFormat) {bufferSize : Nat} (hrows : y + n ≤ size.height.toNat)
    (hword : n * format.rowBytes size.width < Word.limit64)
    (hroom : n * format.rowBytes size.width ≤ bufferSize) :
    (Request.mk (Region.rows size.width y n) (format.rowBytes size.width)).check size format
      bufferSize = .ok (format.rowBytes size.width) := by
  have hy : (Region.rows size.width y n).y.toNat = y :=
    toNat_ofNat_of_le (Nat.le_of_add_right_le hrows)
  have hn : (Region.rows size.width y n).height.toNat = n :=
    toNat_ofNat_of_le (Nat.le_of_add_left_le hrows)
  have hreq : (Request.mk (Region.rows size.width y n) (format.rowBytes size.width)).required
      (format.rowBytes size.width) = n * format.rowBytes size.width := by
    rw [required, hn]
    by_cases hzero : n = 0
    · rw [if_pos hzero, hzero, Nat.zero_mul]
    · rw [if_neg hzero, ← Nat.succ_mul, Nat.succ_eq_add_one,
        Nat.sub_add_cancel (Nat.pos_of_ne_zero hzero)]
  refine check_eq_ok_iff.mpr ⟨?_, rfl, le_rfl, by rwa [hreq], by rwa [hreq]⟩
  rw [Region.contains_ofSize_iff, Region.right, Region.bottom, hy, hn]
  exact ⟨by simp [Region.rows], hrows⟩

/-- The rows that answer a request, cut out of the rows of a whole image. -/
def rowsOf (q : Request) (format : PixelFormat) (rows : Nat → Bytes) (r : Nat) : Bytes :=
  (rows (q.region.y.toNat + r)).part (q.region.x.toNat * format.bytesPerPixel)
    (format.rowBytes q.region.width)

/-- The rows that answer a request for whole rows are those of the image. -/
theorem rowsOf_rows {rows : Nat → Bytes} (stride : Nat) {r : Nat} (hy : y ≤ size.height.toNat)
    (hrow : (rows (y + r)).size = format.rowBytes size.width) :
    (Request.mk (Region.rows size.width y n) stride).rowsOf format rows r = rows (y + r) := by
  have hy' : (Region.rows size.width y n).y.toNat = y := toNat_ofNat_of_le hy
  have hx : (Region.rows size.width y n).x.toNat = 0 := rfl
  rw [rowsOf, hy', hx, Nat.zero_mul]
  exact Bytes.part_of_size_eq hrow

end Request

namespace Source

variable {σ : Type} {I : σ → Prop} {rows : Nat → Bytes} {faults : Failure → Prop}

/-- The state after some requests, whatever became of them. -/
def after (src : Source σ) (s : σ) (asked : List (Request × Bytes)) : σ :=
  asked.foldl (fun s a => (src.copy a.1 a.2 s).state) s

/-- Some requests lead from one state to another. -/
def Reaches (src : Source σ) (s s' : σ) : Prop := ∃ asked, s' = src.after s asked

/-- In the states of `I`, a row that the source gives is that of `rows`. -/
def Gives (src : Source σ) (I : σ → Prop) (rows : Nat → Bytes) (faults : Failure → Prop) : Prop :=
  ∀ y < src.size.height.toNat,
    (src.fetchRow y).Ensures I (fun row s => row = rows y ∧ I s) fun e s => faults e ∧ I s

theorem size_of_fetchRow {src : Source σ} {y : Nat} {s : σ} {row : Bytes}
    (h : (src.fetchRow y s).result = .ok row) : row.size = src.format.rowBytes src.size.width := by
  have hsize := src.size_copy ⟨Region.line src.size.width y, src.format.rowBytes src.size.width⟩
    (Array.replicate (src.format.rowBytes src.size.width) 0) s
  simp only [fetchRow] at h
  generalize src.copy _ _ s = reply at h hsize
  cases hr : reply.result with
  | error e => simp [hr, Except.map] at h
  | ok _ =>
    simp only [hr, Except.map, Except.ok.injEq] at h
    rw [← h, hsize, Array.size_replicate]

theorem Gives.sized {src : Source σ} (h : src.Gives I rows faults) {y : Nat}
    (hy : y < src.size.height.toNat) :
    (src.fetchRow y).Ensures I
      (fun row s => row = rows y ∧ row.size = src.format.rowBytes src.size.width ∧ I s)
      fun e s => faults e ∧ I s := by
  intro s hs
  have hfetch := h y hy s hs
  cases hr : (src.fetchRow y s).result with
  | ok row =>
    rw [hr] at hfetch
    exact ⟨hfetch.1, size_of_fetchRow hr, hfetch.2⟩
  | error e =>
    rw [hr] at hfetch
    exact hfetch

/-- In the states of `I`, the source answers requests out of `rows`. -/
structure Serves (src : Source σ) (I : σ → Prop) (rows : Nat → Bytes)
    (faults : Failure → Prop) : Prop where
  size_row : ∀ y < src.size.height.toNat, (rows y).size = src.format.rowBytes src.size.width
  /-- the invariant survives every request -/
  keeps : ∀ q buffer {s}, I s → I (src.copy q buffer s).state
  /-- a malformed request changes nothing -/
  refuses : ∀ {q buffer s e}, I s → q.check src.size src.format buffer.size = .error e →
    src.copy q buffer s = ⟨.error (.error e), buffer, s, []⟩
  /-- a request that is served is served exactly -/
  done : ∀ {q buffer s n}, I s → q.check src.size src.format buffer.size = .ok n →
    (src.copy q buffer s).result = .ok () →
      Bytes.Laid (q.rowsOf src.format rows) q.stride n 0 q.region.height.toNat buffer
        (src.copy q buffer s).buffer
  /-- a failure leaves the rows before it in the buffer -/
  fails : ∀ {q buffer s n e}, I s → q.check src.size src.format buffer.size = .ok n →
    (src.copy q buffer s).result = .error e → faults e ∧ ∃ k < q.region.height.toNat,
      Bytes.Laid (q.rowsOf src.format rows) q.stride n 0 k buffer (src.copy q buffer s).buffer

/-- Rows that are made as they should be are laid out as they should be, up to the first
failure. -/
theorem layRows_spec {produce : Nat → Pull σ Bytes} {stride len : Nat} (rows : Nat → Bytes)
    (first n : Nat) (hstride : len ≤ stride)
    (hlen : ∀ r, first ≤ r → r < first + n → (rows r).size = len)
    (hrow : ∀ r, first ≤ r → r < first + n →
      (produce r).Ensures I (fun row s => row = rows r ∧ I s) fun e s => faults e ∧ I s)
    (buffer : Bytes) (hfit : ∀ r, first ≤ r → r < first + n → r * stride + len ≤ buffer.size)
    {s : σ} (hs : I s) :
    I (layRows produce stride first n buffer s).state ∧
      match (layRows produce stride first n buffer s).result with
      | .ok () => Bytes.Laid rows stride len first (first + n) buffer
          (layRows produce stride first n buffer s).buffer
      | .error e => faults e ∧ ∃ k, first ≤ k ∧ k < first + n ∧
          Bytes.Laid rows stride len first k buffer
            (layRows produce stride first n buffer s).buffer := by
  -- on the rows that are left; each leaves another buffer and another state to the next
  induction n generalizing first buffer s with
  | zero => exact ⟨hs, .none rows stride len first buffer⟩
  | succ n ih =>
    simp only [layRows]
    cases hr : (produce first s).result with
    | error e =>
      obtain ⟨hfault, hI⟩ := (hrow first le_rfl (by omega)).error hs hr
      exact ⟨hI, hfault, first, le_rfl, by omega, .none rows stride len first buffer⟩
    | ok row =>
      obtain ⟨rfl, hI⟩ := (hrow first le_rfl (by omega)).ok hs hr
      have hsize := hlen first le_rfl (by omega)
      have hroom := hfit first le_rfl (by omega)
      rw [← hsize] at hroom
      obtain ⟨between, hwrite⟩ := Option.isSome_iff_exists.mp (Bytes.blit?_isSome_iff.mpr hroom)
      have hbetween := Bytes.size_of_blit? hwrite
      obtain ⟨hI', hrest⟩ := ih (first + 1) (fun r hlo hhi => hlen r (by omega) (by omega))
        (fun r hlo hhi => hrow r (by omega) (by omega)) between
        (fun r hlo hhi => by rw [hbetween]; exact hfit r (by omega) (by omega)) hI
      simp only [hwrite]
      refine ⟨hI', ?_⟩
      -- this row stands before those of the rest, be they all of them or those before a failure
      cases hl : (layRows produce stride (first + 1) n between (produce first s).state).result with
      | ok _ =>
        rw [hl] at hrest
        rw [show first + (n + 1) = first + 1 + n by omega]
        exact Bytes.Laid.cons hwrite hsize hstride (by omega) hrest
      | error e =>
        rw [hl] at hrest
        obtain ⟨hfault, k, hlo, hhi, hlaid⟩ := hrest
        exact ⟨hfault, k, by omega, by omega, Bytes.Laid.cons hwrite hsize hstride (by omega) hlaid⟩

theorem copy_ofRows {size : Size} {format : PixelFormat} {announce : Region → List Event}
    {produce : Region → Nat → Pull σ Bytes} {q : Request} {buffer : Bytes} {s : σ} {n : Nat}
    (hq : q.check size format buffer.size = .ok n) :
    (ofRows size format announce produce).copy q buffer s =
      let reply := layRows (fun r => produce q.region (q.region.y.toNat + r)) q.stride 0
        q.region.height.toNat buffer s
      { reply with events := announce q.region ++ reply.events } := by
  simp only [ofRows, replyByRows, hq]

/-- Laying out rows succeeds only if each of them was made, in a state of the invariant. -/
theorem exists_made {produce : Nat → Pull σ Bytes} {stride first n : Nat} {buffer : Bytes} {s : σ}
    (hkeeps : ∀ r, first ≤ r → r < first + n →
      (produce r).Ensures I (fun _ s => I s) fun _ s => I s)
    (hs : I s) (hok : (layRows produce stride first n buffer s).result = .ok ()) {r : Nat}
    (hlo : first ≤ r) (hhi : r < first + n) :
    ∃ s', I s' ∧ ∃ row, (produce r s').result = .ok row := by
  induction n generalizing first buffer s with
  | zero => omega
  | succ n ih =>
    simp only [layRows] at hok
    cases hr : (produce first s).result with
    | error e =>
      rw [hr] at hok
      cases hok
    | ok row =>
      rcases Nat.eq_or_lt_of_le hlo with rfl | hlt
      · exact ⟨s, hs, row, hr⟩
      · have hI := (hkeeps first le_rfl (by omega)).ok hs hr
        rw [hr] at hok
        simp only at hok
        split at hok
        · cases hok
        · exact ih (fun r' hlo' hhi' => hkeeps r' (by omega) (by omega)) hI hok hlt (by omega)

/-- A source that makes each row of a request on its own serves what it makes. -/
theorem serves_ofRows {size : Size} {format : PixelFormat} {announce : Region → List Event}
    {produce : Region → Nat → Pull σ Bytes}
    (hsize : ∀ y < size.height.toNat, (rows y).size = format.rowBytes size.width)
    (hrow : ∀ region y, (Region.ofSize size).contains region → y < region.bottom →
      (produce region y).Ensures I
        (fun row s => row = (rows y).part (region.x.toNat * format.bytesPerPixel)
          (format.rowBytes region.width) ∧ I s)
        fun e s => faults e ∧ I s) :
    (ofRows size format announce produce).Serves I rows faults := by
  -- what the laying out of the rows of an accepted request comes to
  have hlay (q : Request) (buffer : Bytes) (s : σ) (n : Nat) (hs : I s)
      (hq : q.check size format buffer.size = .ok n) :=
    let ⟨hin, hn, hstride, _, hreq⟩ := Request.check_eq_ok_iff.mp hq
    have hbounds := (Region.contains_ofSize_iff _ _).mp hin
    layRows_spec (q.rowsOf format rows) 0 q.region.height.toNat hstride
      (fun r _ hr => by
        rw [hn, Request.rowsOf, Bytes.size_part]
        rw [hsize _ (by simp only [Region.bottom] at hbounds; omega), PixelFormat.rowBytes,
          PixelFormat.rowBytes, ← Nat.add_mul]
        exact Nat.mul_le_mul_right _ hbounds.1)
      (fun r _ hr => by
        rw [Request.rowsOf]
        exact hrow q.region _ hin (by simp only [Region.bottom]; omega))
      buffer
      (fun r _ hr => by
        rw [Request.required, if_neg (by omega)] at hreq
        have : r * q.stride ≤ (q.region.height.toNat - 1) * q.stride :=
          Nat.mul_le_mul_right _ (by omega)
        omega)
      hs
  refine ⟨hsize, ?_, ?_, ?_, ?_⟩
  · intro q buffer s hs
    cases hq : q.check size format buffer.size with
    | error e => simpa only [ofRows, replyByRows, hq] using hs
    | ok n =>
      rw [copy_ofRows hq]
      exact (hlay q buffer s n hs hq).1
  · intro q buffer s e _ hq
    have hq' : q.check size format buffer.size = .error e := hq
    simp only [ofRows, replyByRows, hq']
  · intro q buffer s n hs hq hok
    have hq' : q.check size format buffer.size = .ok n := hq
    have h := (hlay q buffer s n hs hq').2
    rw [copy_ofRows hq'] at hok ⊢
    rw [hok, Nat.zero_add] at h
    exact h
  · intro q buffer s n e hs hq herr
    have hq' : q.check size format buffer.size = .ok n := hq
    have h := (hlay q buffer s n hs hq').2
    rw [copy_ofRows hq'] at herr ⊢
    rw [herr, Nat.zero_add] at h
    obtain ⟨hfault, k, -, hk, hlaid⟩ := h
    exact ⟨hfault, k, hk, hlaid⟩

theorem check_line {size : Size} (format : PixelFormat) {y bufferSize : Nat}
    (hy : y < size.height.toNat) (hsize : bufferSize = format.rowBytes size.width) :
    (Request.mk (Region.line size.width y) (format.rowBytes size.width)).check size format
      bufferSize = .ok (format.rowBytes size.width) := by
  have hword := format.rowBytes_lt size.width
  rw [Region.line_eq_rows]
  exact Request.check_rows format hy (by rw [Nat.one_mul, Word.limit64]; omega)
    (by rw [Nat.one_mul, hsize])

namespace Serves

variable {src : Source σ}

theorem keeps_after (h : src.Serves I rows faults) {s s' : σ} (hs : I s) (hr : src.Reaches s s') :
    I s' := by
  obtain ⟨asked, rfl⟩ := hr
  -- on the requests, with the state that each of them leaves
  induction asked generalizing s with
  | nil => exact hs
  | cons a asked ih => exact ih (h.keeps a.1 a.2 hs)

/-- A request for a whole row without padding that is served leaves just this row in the buffer. -/
theorem buffer_of_line (h : src.Serves I rows faults) {s : σ} (hs : I s) {y : Nat}
    (hy : y < src.size.height.toNat) {buffer : Bytes}
    (hsize : buffer.size = src.format.rowBytes src.size.width) {reply : Reply σ}
    (hreply : reply = src.copy ⟨Region.line src.size.width y, src.format.rowBytes src.size.width⟩
      buffer s)
    (hok : reply.result = .ok ()) : reply.buffer = rows y := by
  subst hreply
  have hlaid := h.done hs (check_line src.format hy hsize) hok
  obtain ⟨-, hrow⟩ := Bytes.slice?_eq_some_iff.mp (hlaid.row 0 le_rfl (by simp [Region.line]))
  rw [Nat.zero_mul, Bytes.part_of_size_eq (hlaid.size_eq.trans hsize)] at hrow
  rw [← hrow, Region.line_eq_rows]
  exact Request.rowsOf_rows _ (r := 0) (Nat.le_of_lt hy) (h.size_row y hy)

/-- A source that serves rectangles gives whole rows. -/
theorem gives (h : src.Serves I rows faults) : src.Gives I rows faults := by
  intro y hy s hs
  have hblank : (Array.replicate (src.format.rowBytes src.size.width) (0 : UInt8)).size =
      src.format.rowBytes src.size.width := Array.size_replicate
  have hkeeps := h.keeps ⟨Region.line src.size.width y, src.format.rowBytes src.size.width⟩
    (Array.replicate (src.format.rowBytes src.size.width) 0) hs
  simp only [fetchRow]
  cases hr : (src.copy ⟨Region.line src.size.width y, src.format.rowBytes src.size.width⟩
      (Array.replicate (src.format.rowBytes src.size.width) 0) s).result with
  | error e => exact ⟨(h.fails hs (check_line src.format hy hblank) hr).1, hkeeps⟩
  | ok _ => exact ⟨h.buffer_of_line hs hy hblank rfl hr, hkeeps⟩

/-- Only a request that passes the check is answered. -/
theorem check_of_ok (h : src.Serves I rows faults) {q : Request} {buffer : Bytes} {s : σ}
    (hs : I s) (hok : (src.copy q buffer s).result = .ok ()) :
    ∃ n, q.check src.size src.format buffer.size = .ok n := by
  cases hq : q.check src.size src.format buffer.size with
  | ok n => exact ⟨n, rfl⟩
  | error e =>
    rw [h.refuses hs hq] at hok
    cases hok

/-- A request that is not answered is malformed, or a fault came in between. -/
theorem check_or_fault (h : src.Serves I rows faults) {q : Request} {buffer : Bytes} {s : σ}
    (hs : I s) {e : Failure} (he : (src.copy q buffer s).result = .error e) :
    (∃ cause, q.check src.size src.format buffer.size = .error cause ∧ e = .error cause) ∨
      faults e := by
  cases hq : q.check src.size src.format buffer.size with
  | error cause =>
    left
    rw [h.refuses hs hq] at he
    cases he
    exact ⟨cause, rfl, rfl⟩
  | ok n =>
    right
    exact (h.fails hs hq he).1

/-- Where nothing can fail, an accepted request is served. -/
theorem serves_all (h : src.Serves I rows fun _ => False) {q : Request} {buffer : Bytes} {s : σ}
    {n : Nat} (hs : I s) (hq : q.check src.size src.format buffer.size = .ok n) :
    (src.copy q buffer s).result = .ok () := by
  cases hr : (src.copy q buffer s).result with
  | ok _ => rfl
  | error e => exact (h.fails hs hq hr).1.elim

/-- Where nothing can fail, an accepted request is served exactly, whatever was asked before. -/
theorem laid_after (h : src.Serves I rows fun _ => False) {s₀ : σ} (hs : I s₀)
    (asked : List (Request × Bytes)) {q : Request} {buffer : Bytes} {n : Nat}
    (hq : q.check src.size src.format buffer.size = .ok n) {reply : Reply σ}
    (hreply : reply = src.copy q buffer (src.after s₀ asked)) :
    reply.result = .ok () ∧
      Bytes.Laid (q.rowsOf src.format rows) q.stride n 0 q.region.height.toNat buffer
        reply.buffer := by
  have hafter := h.keeps_after hs ⟨asked, rfl⟩
  have hok := h.serves_all hafter hq
  subst hreply
  exact ⟨hok, h.done hafter hq hok⟩

/-- Two sources of the same rows, neither of which can fail, answer every request alike. -/
theorem answers_eq {τ : Type} {other : Source τ} {J : τ → Prop} {rows' : Nat → Bytes}
    (h : src.Serves I rows fun _ => False) (h' : other.Serves J rows' fun _ => False)
    (hsize : other.size = src.size) (hformat : other.format = src.format)
    (hrows : ∀ y < src.size.height.toNat, rows y = rows' y) {s : σ} {t : τ} (hs : I s) (ht : J t)
    (q : Request) (buffer : Bytes) :
    (src.copy q buffer s).result = (other.copy q buffer t).result ∧
      (src.copy q buffer s).buffer = (other.copy q buffer t).buffer := by
  cases hq : q.check src.size src.format buffer.size with
  | error e =>
    rw [h.refuses hs hq, h'.refuses ht (by rwa [hsize, hformat])]
    exact ⟨rfl, rfl⟩
  | ok n =>
    have hq' : q.check other.size other.format buffer.size = .ok n := by rwa [hsize, hformat]
    have hok := h.serves_all hs hq
    have hok' := h'.serves_all ht hq'
    obtain ⟨hin, -⟩ := Request.check_eq_ok_iff.mp hq
    obtain ⟨-, hbottom⟩ := (Region.contains_ofSize_iff _ _).mp hin
    rw [Region.bottom] at hbottom
    refine ⟨hok.trans hok'.symm, (h.done hs hq hok).unique (h'.done ht hq' hok') fun r _ hr => ?_⟩
    rw [Request.rowsOf, Request.rowsOf, hformat, hrows _ (by omega)]

/-- Where nothing can fail, a request for whole rows without padding gives just these. -/
theorem copy_rows (h : src.Serves I rows fun _ => False) {s : σ} (hs : I s) {y n : Nat}
    (hrows : y + n ≤ src.size.height.toNat)
    (hword : n * src.format.rowBytes src.size.width < Word.limit64) (buffer : Bytes)
    (hsize : buffer.size = n * src.format.rowBytes src.size.width) {reply : Reply σ}
    (hreply : reply = src.copy ⟨Region.rows src.size.width y n,
      src.format.rowBytes src.size.width⟩ buffer s) :
    reply.result = .ok () ∧ reply.buffer = Bytes.stack rows (List.range' y n) := by
  have hcheck := Request.check_rows src.format hrows hword (le_of_eq hsize.symm)
  have hok := h.serves_all hs hcheck
  have hlaid := h.done hs hcheck hok
  have hn : (Region.rows src.size.width y n).height.toNat = n :=
    toNat_ofNat_of_le (Nat.le_of_add_left_le hrows)
  have hrow (r : Nat) (hr : r < n) := h.size_row (y + r) (by omega)
  have hof (r : Nat) (hr : r < n) := Request.rowsOf_rows (n := n)
    (src.format.rowBytes src.size.width) (Nat.le_of_add_right_le hrows) (hrow r hr)
  subst hreply
  rw [hn] at hlaid
  exact ⟨hok, hlaid.eq_stack hsize hof fun r hr => by rw [hof r hr, hrow r hr]⟩

end Serves

/-- Whatever the source has been asked, a row that it gives is that of `rows`. -/
def Steady (src : Source σ) (s₀ : σ) (rows : Nat → Bytes) : Prop :=
  ∀ s, src.Reaches s₀ s → ∀ y < src.size.height.toNat, ∀ row,
    (src.fetchRow y s).result = .ok row → row = rows y

theorem Serves.steady {src : Source σ} (h : src.Serves I rows faults) {s₀ : σ} (hs : I s₀) :
    src.Steady s₀ rows := by
  intro s hr y hy row hrow
  exact ((h.gives y hy).ok (h.keeps_after hs hr) hrow).1

/-- The failures with which a source refuses whole rows. -/
def Refuses (src : Source σ) (s₀ : σ) (e : Failure) : Prop :=
  ∃ s, src.Reaches s₀ s ∧ ∃ y < src.size.height.toNat, (src.fetchRow y s).result = .error e

theorem reaches_self (src : Source σ) (s : σ) : src.Reaches s s := ⟨[], rfl⟩

theorem Reaches.copy {src : Source σ} {s s' : σ} (h : src.Reaches s s') (q : Request)
    (buffer : Bytes) : src.Reaches s (src.copy q buffer s').state := by
  obtain ⟨asked, rfl⟩ := h
  exact ⟨asked ++ [(q, buffer)], by simp [after]⟩

/-- A steady source gives its rows in all states that requests lead to. -/
theorem Steady.gives {src : Source σ} {s₀ : σ} (h : src.Steady s₀ rows) :
    src.Gives (src.Reaches s₀) rows (src.Refuses s₀) := by
  intro y hy s hs
  have hkeeps : src.Reaches s₀ (src.fetchRow y s).state := hs.copy _ _
  cases hr : (src.fetchRow y s).result with
  | ok row => exact ⟨h s hs y hy row hr, hkeeps⟩
  | error e => exact ⟨⟨s, hs, y, hy, hr⟩, hkeeps⟩

end Source

end Resampler

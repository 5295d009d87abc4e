import Resampler.Proofs.Stage.Places

/-!
Which bytes a view copies.

A view has rows that start `v.stride` bytes apart and the buffer of a request has rows that start
`q.stride` bytes apart; neither distance says anything about the other. What a view serves is
told by rows elsewhere. Here it is told byte by byte: where each byte of the buffer comes from,
and that the places on both sides exist. Draining a view takes its padding away, so that of the
view of an image it gives the image again.
-/

namespace Resampler

/-- `after` is `before` with the rectangle of `v` in it that `q` asks for. -/
structure View.Copied (v : View) (q : Request) (before after : Bytes) : Prop where
  size_eq : after.size = before.size
  /-- each row lies in the buffer, and what is copied to it lies in the bytes of the view -/
  inBounds : ∀ r < q.region.height.toNat,
    Span.InBounds
        ⟨r * q.stride, r * q.stride + v.format.rowBytes q.region.width, before.size⟩ ∧
      (v.place q.region (q.region.y.toNat + r)).InBounds
  byte_eq : ∀ r < q.region.height.toNat, ∀ k < v.format.rowBytes q.region.width,
    after[r * q.stride + k]? =
      v.data[(q.region.y.toNat + r) * v.stride + q.region.x.toNat * v.format.bytesPerPixel + k]?
  rest_eq : ∀ i, (∀ r < q.region.height.toNat, ∀ k < v.format.rowBytes q.region.width,
    i ≠ r * q.stride + k) → after[i]? = before[i]?

namespace View

variable {σ : Type} {v : View}

/-- The rows that answer a request are runs of bytes of the view. -/
theorem rowsOf_row {q : Request} (hx : q.region.right ≤ v.size.width.toNat) (r : Nat) :
    q.rowsOf v.format v.row r =
      v.data.part ((q.region.y.toNat + r) * v.stride + q.region.x.toNat * v.format.bytesPerPixel)
        (v.format.rowBytes q.region.width) := by
  rw [Request.rowsOf, row, Bytes.part_part (columns_le hx)]

theorem InMemory.copied (hv : v.InMemory) {q : Request} {buffer : Bytes} {s : σ} {n : Nat}
    (hq : q.check v.size v.format buffer.size = .ok n) :
    v.Copied q buffer ((v.source : Source σ).copy q buffer s).buffer := by
  have hserves : (v.source : Source σ).Serves (fun _ => True) v.row fun _ => False := hv.serves
  have hlaid : Bytes.Laid (q.rowsOf v.format v.row) q.stride n 0 q.region.height.toNat buffer _ :=
    hserves.done (s := s) trivial hq (hserves.serves_all trivial hq)
  obtain ⟨hin, rfl, -⟩ := Request.check_eq_ok_iff.mp hq
  obtain ⟨hright, -⟩ := (Region.contains_ofSize_iff _ _).mp hin
  constructor
  case size_eq => exact hlaid.size_eq
  case inBounds =>
    intro r hr
    obtain ⟨hlow, -⟩ := Request.bounds_of_check hq hr
    exact ⟨(Request.Touches.buffer hr).inBounds hq, hv.inBounds_place hright hlow⟩
  case byte_eq =>
    intro r hr k hk
    rw [hlaid.getElem?_row (Nat.zero_le r) hr (Nat.le_add_right _ _) (Nat.add_lt_add_left hk _),
      rowsOf_row hright, Nat.add_sub_cancel_left, Bytes.getElem?_part, if_pos hk]
  case rest_eq =>
    intro i hi
    refine hlaid.rest i fun r _ hr => ?_
    by_contra hno
    exact hi r hr (i - r * q.stride) (by omega) (by omega)

/-- The rows of a view have no more bytes than the view. -/
theorem InMemory.byteCount_le (hv : v.InMemory) :
    Image.byteCount v.size v.format ≤ v.data.size := by
  obtain ⟨-, -, hstride, -, hroom⟩ := Request.check_eq_ok_iff.mp hv.check_eq
  rw [Image.byteCount, Nat.mul_comm]
  rcases Nat.eq_zero_or_pos v.size.height.toNat with hzero | hpos
  · rw [hzero, Nat.zero_mul]
    exact Nat.zero_le _
  · have hlast := (hv.row_le (Nat.sub_one_lt_of_lt hpos)).1
    have hrows := Nat.mul_le_mul_left (v.size.height.toNat - 1) hstride
    calc v.size.height.toNat * v.format.rowBytes v.size.width
        = (v.size.height.toNat - 1) * v.format.rowBytes v.size.width +
            v.format.rowBytes v.size.width := by
          rw [← Nat.succ_mul, Nat.succ_eq_add_one, Nat.sub_add_cancel hpos]
      _ ≤ (v.size.height.toNat - 1) * v.stride + v.format.rowBytes v.size.width :=
          Nat.add_le_add_right hrows _
      _ ≤ v.data.size := hlast

/-- Draining a view gives the image of its rows. -/
theorem InMemory.exists_drain (hv : v.InMemory) (hheld : v.data.size < Bytes.limit) (s : σ) :
    ∃ out, ((v.source : Source σ).drain s).result = .ok out ∧ out.size = v.size ∧
      out.format = v.format ∧ ∀ y < v.size.height.toNat, out.row? y = some (v.row y) := by
  have hserves : (v.source : Source σ).Serves (fun _ => True) v.row fun _ => False := hv.serves
  obtain ⟨out, hout, hsize, hformat, hdata⟩ :=
    hserves.drain (s := s) trivial (Nat.lt_of_le_of_lt hv.byteCount_le hheld)
  have hsize' : out.size = v.size := hsize
  have hformat' : out.format = v.format := hformat
  have hstride : out.stride = v.format.rowBytes v.size.width := by
    rw [Image.stride, hsize', hformat']
  refine ⟨out, hout, hsize', hformat', fun y hy => ?_⟩
  have hrow : out.row y = v.row y := by
    rw [← hsize'] at hy
    refine Image.row_of_data (by rw [hsize']; exact hdata) (fun z hz => ?_) hy
    rw [hstride]
    exact hv.size_row (by rwa [← hsize'])
  rw [← hrow]
  exact Bytes.slice?_of_le (out.row_le (by rwa [hsize']))

end View

namespace Image

/-- An image is known by its rows. -/
theorem eq_of_rows {a b : Image} (hsize : a.size = b.size) (hformat : a.format = b.format)
    (hrow : ∀ y < b.size.height.toNat, a.row y = b.row y) : a = b := by
  have hstride : a.stride = b.stride := by rw [stride, stride, hsize, hformat]
  have hdata : a.data = b.data := by
    refine Bytes.eq_of_parts ?_ b.size_data fun y hy => ?_
    · rw [a.size_data, hsize, hstride]
    · have hy' := hrow y hy
      rwa [row, row, hstride] at hy'
  cases a
  cases b
  cases hsize
  cases hformat
  cases hdata
  rfl

end Image

namespace View

variable {σ : Type}

/-- A request for a rectangle of a view is answered if and only if it passes the check. Then each
byte of the rectangle stands where the request wants it, whatever the two strides are, and no
other byte is changed; and otherwise none is. Draining the view, be it empty or not, gives the
image of its rows without padding, which is the image that the view is of if there is one. -/
theorem copy_exact (s : σ) :
    (∀ v : View, v.InMemory →
      (∀ (q : Request) (buffer : Bytes) (reply : Reply σ), reply = v.source.copy q buffer s →
        (reply.result = .ok () ↔ ∃ n, q.check v.size v.format buffer.size = .ok n) ∧
        (reply.result = .ok () → v.Copied q buffer reply.buffer) ∧
        ∀ e, reply.result = .error e → reply.buffer = buffer ∧
          ∃ cause, q.check v.size v.format buffer.size = .error cause ∧ e = .error cause) ∧
      (v.data.size < Bytes.limit → ∃ out, ((v.source : Source σ).drain s).result = .ok out ∧
        out.size = v.size ∧ out.format = v.format ∧
          ∀ y < v.size.height.toNat, out.row? y = some (v.row y))) ∧
    ∀ img : Image, ((img.view.source : Source σ).drain s).result = .ok img := by
  constructor
  · intro v hv
    have hserves : (v.source : Source σ).Serves (fun _ => True) v.row fun _ => False := hv.serves
    refine ⟨fun q buffer reply hreply => ?_, fun hheld => hv.exists_drain hheld s⟩
    cases hq : q.check v.size v.format buffer.size with
    | error cause =>
      have hrefused := hserves.refuses (s := s) trivial hq
      rw [hrefused] at hreply
      subst hreply
      exact ⟨by simp, nofun, fun e he => ⟨rfl, cause, rfl, (Except.error.inj he).symm⟩⟩
    | ok n =>
      have hok := hserves.serves_all (s := s) trivial hq
      subst hreply
      exact ⟨by simp [hok], fun _ => hv.copied hq, fun e he => by cases hok.symm.trans he⟩
  · intro img
    have hheld : img.view.data.size < Bytes.limit := by
      have hpacked : img.view.data.size = Image.byteCount img.size img.format := img.packed
      rw [hpacked]
      exact img.held
    obtain ⟨out, hout, hsize, hformat, hrows⟩ := (InMemory.ofImage img).exists_drain hheld s
    have heq : out = img := by
      refine Image.eq_of_rows hsize hformat fun y hy => ?_
      obtain ⟨-, hrow⟩ := Bytes.slice?_eq_some_iff.mp (hrows y hy)
      exact hrow.symm
    rw [hout, heq]

/-- The right column of a padded square, with a byte between its pixels, and once more into a
buffer without room for the second of them. -/
theorem copy_exact_padded_square :
    let v : View := ⟨⟨2, 2⟩, .grey8, 3, #[10, 200, 0, 30, 40]⟩
    let right : Request := ⟨⟨1, 0, 1, 2⟩, 2⟩
    let reply := (v.source : Source Unit).copy right #[7, 7, 7] ()
    v.InMemory ∧ reply.result = .ok () ∧ reply.buffer[1]? = some 7 ∧ reply.buffer[2]? = some 40 ∧
      ((v.source : Source Unit).copy right #[7, 7] ()).buffer = #[7, 7] ∧
      ∃ out, ((v.source : Source Unit).drain ()).result = .ok out ∧
        out.row? 1 = some #[30, 40] := by
  intro v right reply
  have hv : v.InMemory := .ofBytes (rfl : View.ofBytes ⟨2, 2⟩ .grey8 3 v.data = .ok v)
  obtain ⟨hcopy, hdrain⟩ := (copy_exact ()).1 v hv
  obtain ⟨hok, hcopied, -⟩ := hcopy right #[7, 7, 7] reply rfl
  have hresult : reply.result = .ok () := hok.mpr ⟨1, rfl⟩
  obtain ⟨-, -, hbyte, hrest⟩ := hcopied hresult
  obtain ⟨-, -, hrefused⟩ := hcopy right #[7, 7] _ rfl
  obtain ⟨hkept, -⟩ := hrefused (.error (.bufferTooSmall 2 3)) rfl
  obtain ⟨out, hout, -, -, hrows⟩ := hdrain (by decide)
  exact ⟨hv, hresult, hrest 1 (by decide), hbyte 1 (by decide) 0 (by decide), hkept, out, hout,
    hrows 1 (by decide)⟩

end View

end Resampler

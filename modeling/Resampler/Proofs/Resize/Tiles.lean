import Resampler.Proofs.Resize.Stages

/-!
Resizing by tiles.

A caller may ask the chain of a resize for its image rectangle by rectangle instead of
draining it, in any order and as often as it likes. What the windows of the chain hold
then depends on all of these requests, but no answer does: it is cut out of the image
that a resize gives.
-/

namespace Resampler.Image

variable {α : Type} [Analytic α] {img : Image} {settings : Settings α} {chain : Chain α Unit}

/-- After any requests at all, a well-formed request succeeds, and its rows are the parts of the
rows of the resized image that lie in its rectangle. No other byte of the buffer is changed. -/
theorem tiles_eq_resize
    (h : ((Chain.base img.source : Chain α Unit).forSettings settings).result = .ok chain)
    (asked : List (Request × Bytes)) {q : Request} {buffer : Bytes} {n : Nat}
    (hq : q.check chain.size chain.format buffer.size = .ok n) {reply : Reply chain.State}
    (hreply : reply = chain.source.copy q buffer (chain.source.after (chain.start ()) asked)) :
    reply.result = .ok () ∧
      (byteCount settings.target img.format < Bytes.limit →
        ∃ out, (img.resize settings).result = .ok out ∧ out.size = settings.target ∧
          out.format = img.format ∧ ∀ r < q.region.height.toNat, ∃ row,
            reply.buffer.slice? (r * q.stride) n = some row ∧
              out.view.rowPart? q.region (q.region.y.toNat + r) = some row) ∧
      ∀ i, (∀ r < q.region.height.toNat, i < r * q.stride ∨ r * q.stride + n ≤ i) →
        reply.buffer[i]? = buffer[i]? := by
  have hserves := serves_of_forSettings h
  obtain ⟨-, -, hsize, hformat⟩ := Chain.built_of_forSettings (.base img.source) h
  -- all that is kept of the earlier requests is that the windows are coherent
  have hs := hserves.keeps_after (chain.coherent_start img.row (s := ()) trivial) ⟨asked, rfl⟩
  have hok := hserves.serves_all hs hq
  have hlaid := hserves.done hs hq hok
  subst hreply
  refine ⟨hok, fun held => ?_, fun i hi => hlaid.rest i fun r _ hr => hi r hr⟩
  obtain ⟨out, hout, houtsize, houtformat, hdata⟩ := resize_of_forSettings h held
  have hrow {y : Nat} (hy : y < settings.height.toNat) : out.row y = chain.picture img.row y := by
    refine row_of_data (by rw [hdata, houtsize]; rfl) (fun z hz => ?_) (by rwa [houtsize])
    rw [houtsize] at hz
    rw [size_picture_of_forSettings h hz, stride, houtsize, houtformat]
    rfl
  refine ⟨out, hout, houtsize, houtformat, fun r hr => ⟨_, hlaid.row r (Nat.zero_le r) hr, ?_⟩⟩
  obtain ⟨hin, -⟩ := Request.check_eq_ok_iff.mp hq
  obtain ⟨hright, hbottom⟩ := (Region.contains_ofSize_iff _ _).mp hin
  rw [hsize] at hright hbottom
  rw [Region.bottom] at hbottom
  have hchain : chain.source.format = img.format := hformat
  have hy := Nat.lt_of_lt_of_le (Nat.add_lt_add_left hr _) hbottom
  rw [rowPart?_view (by rwa [houtsize]) (by rw [houtsize]; omega), hrow hy, Request.rowsOf,
    houtformat, hchain]

/-- A tile of an image that is made narrower, taller and sharper, asked for after all of it. -/
theorem tile_of_grey_pair :
    let img : Image := ⟨⟨2, 1⟩, .grey8, #[10, 200], by decide, by decide⟩
    let settings : Settings Float := ⟨1, 2, .nearest, 1.0, ⟨50, 1.0, 0⟩⟩
    let tile : Region := ⟨0, 1, 1, 1⟩
    ∃ chain out row,
      ((Chain.base img.source : Chain Float Unit).forSettings settings).result = .ok chain ∧
      (img.resize settings).result = .ok out ∧
      (chain.source.copy ⟨tile, 1⟩ #[0] (chain.source.after (chain.start ())
        [(⟨⟨0, 0, 1, 2⟩, 1⟩, #[0, 0])])).buffer.slice? 0 1 = some row ∧
      out.view.rowPart? tile 1 = some row := by
  intro img settings tile
  have hcheck : settings.check = .ok () := by decide +kernel
  have hkernel : RowKernel.ofFormat? (Chain.base img.source : Chain Float Unit).format =
      some ⟨1, .eight, .none⟩ := rfl
  obtain ⟨chain, h⟩ := Chain.exists_forSettings hcheck hkernel (by decide) (by decide)
  obtain ⟨-, -, hsize, hformat⟩ := Chain.built_of_forSettings (.base img.source) h
  have hq : (Request.mk tile 1).check chain.size chain.format (#[0] : Bytes).size = .ok 1 := by
    rw [hsize, hformat]
    rfl
  obtain ⟨-, htile, -⟩ := tiles_eq_resize h [(⟨⟨0, 0, 1, 2⟩, 1⟩, #[0, 0])] hq rfl
  obtain ⟨out, hout, -, -, hrow⟩ := htile (by decide)
  obtain ⟨row, hslice, hpart⟩ := hrow 0 (by decide)
  exact ⟨chain, out, row, h, hout, hslice, hpart⟩

end Resampler.Image

import Resampler.Proofs.Resize.Stages
import Resampler.Resize.Strips

/-!
Resizing in strips.

The strips of a resize are made by chains of their own, each of which starts with empty
windows in the middle of the image, and their tables are made on another path than those of
one chain for the whole. Both paths find the same faults and lead to the same chain, and
what a chain serves does not depend on what it was asked before; so a strip holds the
rows of the whole image. The strips are a partition of these rows, and the order in which
they are made is of no consequence.
-/

namespace Resampler

namespace Strips

theorem rows_pos (height threads : Nat) : 0 < rows height threads := by
  simp only [rows, leastRows]
  omega

theorem flatMap_range' (height rows k : Nat) :
    (List.range k).flatMap (fun i => List.range' (i * rows) (min rows (height - i * rows))) =
      List.range (min height (k * rows)) := by
  induction k with
  | zero => simp
  | succ k ih =>
    rw [List.range_succ, List.flatMap_append, ih, List.flatMap_singleton, Nat.succ_mul,
      List.range_eq_range', List.range_eq_range']
    -- past the end of the rows a strip would be empty
    by_cases hfull : k * rows ≤ height
    · have hjoin := List.range'_append_1 (s := 0) (m := k * rows)
        (n := min rows (height - k * rows))
      rw [Nat.zero_add] at hjoin
      rw [Nat.min_eq_right hfull, hjoin]
      congr 1
      omega
    · rw [show height - k * rows = 0 by omega, Nat.min_zero, List.range'_zero, List.append_nil]
      congr 1
      omega

/-- The strips follow each other without gap or overlap. -/
theorem flatMap_cut {height rows : Nat} (hrows : 0 < rows) :
    (cut height rows).flatMap (fun s => List.range' s.1 s.2) = List.range height := by
  have hreach : height ≤ (height + rows - 1) / rows * rows := by
    have := Nat.lt_div_mul_add (a := height + rows - 1) hrows
    omega
  rw [cut, List.flatMap_map, flatMap_range', Nat.min_eq_left hreach]

theorem pos_of_mem_cut {height rows : Nat} (hrows : 0 < rows) {s : Nat × Nat}
    (hs : s ∈ cut height rows) : 0 < s.2 := by
  obtain ⟨i, hi, rfl⟩ := List.mem_map.mp hs
  have hlt := (Nat.lt_div_iff_mul_lt hrows).mp (List.mem_range.mp hi)
  simp only [Nat.lt_min]
  omega

/-- The rows of the strips are the rows of the image. -/
theorem exists_mem_cut_iff {height rows y : Nat} (hrows : 0 < rows) :
    (∃ s ∈ cut height rows, s.1 ≤ y ∧ y < s.1 + s.2) ↔ y < height := by
  rw [← List.mem_range, ← flatMap_cut hrows, List.mem_flatMap]
  simp only [List.mem_range'_1]

theorem le_of_mem_cut {height rows : Nat} (hrows : 0 < rows) {s : Nat × Nat}
    (hs : s ∈ cut height rows) : s.1 + s.2 ≤ height := by
  have hpos := pos_of_mem_cut hrows hs
  have hlast := (exists_mem_cut_iff (y := s.1 + s.2 - 1) hrows).mp ⟨s, hs, by omega, by omega⟩
  omega

end Strips

variable {α : Type} [Analytic α]

namespace StripPlan

/-- The chain of a strip before it is sharpened. -/
def staged (plan : StripPlan) : Except (SetupError α) (Chain α Unit) :=
  match plan.tables with
  | some (horizontal, vertical) =>
    ((Chain.base plan.view.source : Chain α Unit).withTables horizontal vertical false).result
  | none => .ok (.base plan.view.source)

theorem result_chain (plan : StripPlan) (settings : Settings α) :
    (plan.chain settings).result = (do
      let staged ← plan.staged
      if settings.sharpen.sharpens then (staged.sharpened settings.sharpen).result
      else pure staged) := by
  unfold chain staged
  cases plan.tables with
  | none =>
    simp only [Construction.result_bind, Construction.result_ite, Construction.result_pure]
    rfl
  | some tables =>
    simp only [Construction.result_bind, Construction.result_ite, Construction.result_pure]
    rfl

/-- The tables that the strips share are those of one chain for the whole, with the same faults. -/
theorem build_bind_staged (img : Image) {settings : Settings α} {f : Interpolation α}
    (hcheck : settings.check = .ok ()) (hf : settings.interpolation = .ok f) :
    (build img settings >>= fun plan => plan.staged) =
      (Chain.base img.source : Chain α Unit).staged settings f := by
  have hsize : (Chain.base img.source : Chain α Unit).size = img.size := rfl
  have hformat : (Chain.base img.source : Chain α Unit).format = img.format := rfl
  unfold build Chain.staged Chain.resampled
  simp only [hcheck, hf, hsize, hformat, Construction.result_bind, Construction.result_ofExcept,
    TapTable.result_buildScale]
  cases (RowKernel.ofFormat img.format : Except (SetupError α) RowKernel) with
  | error e => split <;> rfl
  | ok kernel =>
    by_cases hsame : img.size = settings.target
    · simp only [if_pos hsame, ok_bind]
      rfl
    · simp only [if_neg hsame, ok_bind]
      have hwidth : settings.target.width = settings.width := rfl
      have hheight : settings.target.height = settings.height := rfl
      rw [hwidth, hheight]
      cases TapTable.scale img.size.width.toNat settings.width.toNat kernel.weightColors
        kernel.splitsAlpha f with
      | error e => rfl
      | ok horizontal =>
        cases TapTable.scale img.size.height.toNat settings.height.toNat kernel.weightColors
          kernel.splitsAlpha f <;> rfl

/-- Making the tables of the strips and then a strip's chain comes to making the chain of the
whole image. -/
theorem build_bind_chain (img : Image) (settings : Settings α) :
    (build img settings >>= fun plan => (plan.chain settings).result) =
      ((Chain.base img.source : Chain α Unit).forSettings settings).result := by
  rw [Chain.result_forSettings]
  cases hcheck : settings.check with
  | error e =>
    rw [build, hcheck]
    rfl
  | ok _ =>
    obtain ⟨-, -, ⟨f, hf⟩, -⟩ := Settings.check_eq_ok_iff.mp hcheck
    rw [hf]
    change _ = (Chain.base img.source : Chain α Unit).staged settings f >>= _
    rw [← build_bind_staged img hcheck hf]
    cases build img settings with
    | error e => rfl
    | ok plan => exact plan.result_chain settings

/-- A plan that has been made is one for the image, and the chain of a strip is never refused. -/
theorem exists_chain {img : Image} {settings : Settings α} {plan : StripPlan}
    (h : build img settings = .ok plan) : plan.view = img.view ∧
      ∃ chain, (plan.chain settings).result = .ok chain ∧
        ((Chain.base img.source : Chain α Unit).forSettings settings).result = .ok chain := by
  have hplan := h
  obtain ⟨_, hcheck, h⟩ := bind_eq_ok_iff.mp h
  obtain ⟨kernel, hkernel, h⟩ := bind_eq_ok_iff.mp h
  rw [RowKernel.ofFormat_eq_ok_iff] at hkernel
  obtain ⟨-, -, ⟨f, hf⟩, -⟩ := Settings.check_eq_ok_iff.mp hcheck
  have hview : plan.view = img.view ∧ ∃ staged,
      (plan.staged : Except (SetupError α) (Chain α Unit)) = .ok staged := by
    split at h
    · cases h
      exact ⟨rfl, _, rfl⟩
    · obtain ⟨f, -, h⟩ := bind_eq_ok_iff.mp h
      obtain ⟨horizontal, hhorizontal, h⟩ := bind_eq_ok_iff.mp h
      obtain ⟨vertical, hvertical, h⟩ := bind_eq_ok_iff.mp h
      cases h
      exact ⟨rfl, _, Chain.withTables_of_scale (c := .base img.source) settings.target hkernel
        hhorizontal hvertical false⟩
  obtain ⟨hview, staged, hstaged⟩ := hview
  have hbuilt := build_bind_staged img hcheck hf
  rw [hplan, ok_bind, hstaged, eq_comm] at hbuilt
  obtain ⟨chain, hchain⟩ := Chain.exists_of_staged (c := .base img.source) hcheck hkernel hf hbuilt
  refine ⟨hview, chain, ?_, hchain⟩
  rw [← hchain, ← build_bind_chain, hplan, ok_bind]

/-- A strip holds the rows of the image that one chain for the whole would make. -/
theorem strip_eq_stack {img : Image} {settings : Settings α} {plan : StripPlan}
    {chain : Chain α Unit} (hplan : build img settings = .ok plan)
    (hchain : ((Chain.base img.source : Chain α Unit).forSettings settings).result = .ok chain)
    (held : Image.byteCount settings.target img.format < Bytes.limit) {y n : Nat}
    (hyn : y + n ≤ settings.height.toNat) :
    plan.strip settings y n = .ok (Bytes.stack (chain.picture img.row) (List.range' y n)) := by
  obtain ⟨hview, chain', hresult, hchain'⟩ := exists_chain hplan
  rw [hchain, Except.ok.injEq] at hchain'
  subst hchain'
  obtain ⟨-, -, hsize, hformat⟩ := Chain.built_of_forSettings (.base img.source) hchain
  have hsize' : chain.source.size = settings.target := hsize
  have hformat' : chain.source.format = img.format := hformat
  have hword : n * img.format.rowBytes settings.width < Word.limit64 :=
    calc n * img.format.rowBytes settings.width
        ≤ settings.height.toNat * img.format.rowBytes settings.width :=
          Nat.mul_le_mul_right _ (by omega)
      _ = Image.byteCount settings.target img.format := Nat.mul_comm _ _
      _ < Bytes.limit := held
      _ < Word.limit64 := by decide
  have hcopy := (Image.serves_of_forSettings hchain).copy_rows
    (chain.coherent_start img.row (s := ()) trivial) (y := y) (n := n) (by rwa [hsize'])
    (by rwa [hsize', hformat']) (Array.replicate (img.format.rowBytes settings.width * n) 0)
    (by rw [hsize', hformat', Array.size_replicate, Nat.mul_comm]; rfl) rfl
  have htarget : settings.target.width = settings.width := rfl
  rw [hsize', hformat', htarget, Region.rows] at hcopy
  obtain ⟨hok, hbuffer⟩ := hcopy
  have hformat'' : plan.view.format = img.format := by
    rw [hview]
    rfl
  unfold strip
  simp only [hresult, hformat'', Except.mapError, ok_bind, hok, hbuffer]
  rfl

/-- The bytes of a resized image with one more strip in its place. -/
def place (plan : StripPlan) (settings : Settings α) (data : Bytes) (s : Nat × Nat) :
    Except (ResizeFailure α) Bytes := do
  let bytes ← plan.strip settings s.1 s.2
  match data.blit? (s.1 * plan.view.format.rowBytes settings.width) bytes with
  | some data => pure data
  | none => throw .outOfBounds

/-- Strips can be made in any order: all rows that some strip holds come to stand in their
places. -/
theorem foldlM_place {img : Image} {settings : Settings α} {plan : StripPlan}
    {chain : Chain α Unit} (hplan : build img settings = .ok plan)
    (hchain : ((Chain.base img.source : Chain α Unit).forSettings settings).result = .ok chain)
    (held : Image.byteCount settings.target img.format < Bytes.limit) {order : List (Nat × Nat)}
    (horder : ∀ s ∈ order, s.1 + s.2 ≤ settings.height.toNat) {data : Bytes}
    (hsize : data.size = settings.height.toNat * img.format.rowBytes settings.width) :
    ∃ data', order.foldlM (plan.place settings) data = .ok data' ∧
      data'.size = settings.height.toNat * img.format.rowBytes settings.width ∧
      ∀ z < settings.height.toNat, (∃ s ∈ order, s.1 ≤ z ∧ z < s.1 + s.2) ∨
          data.part (z * img.format.rowBytes settings.width)
            (img.format.rowBytes settings.width) = chain.picture img.row z →
        data'.part (z * img.format.rowBytes settings.width)
          (img.format.rowBytes settings.width) = chain.picture img.row z := by
  -- on the strips still to be made; those that were made before are in `data`
  induction order generalizing data with
  | nil => exact ⟨data, rfl, hsize, fun z _ h => h.resolve_left (by simp)⟩
  | cons s order ih =>
    have hs := horder s List.mem_cons_self
    obtain ⟨data₁, hblit, hsize₁, hrows₁⟩ := Bytes.exists_blit?_stack (chain.picture img.row)
      (fun z hz => Image.size_picture_of_forSettings hchain hz) hs hsize
    obtain ⟨data', hfold, hsize', hrows'⟩ :=
      ih (fun s' hs' => horder s' (List.mem_cons_of_mem s hs')) hsize₁
    obtain ⟨hview, -⟩ := exists_chain hplan
    have hformat : plan.view.format = img.format := by
      rw [hview]
      rfl
    have hplace : plan.place settings data s = .ok data₁ := by
      rw [place, strip_eq_stack hplan hchain held hs, ok_bind, hformat, hblit]
      rfl
    refine ⟨data', ?_, hsize', fun z hz hrow => hrows' z hz ?_⟩
    · rw [List.foldlM_cons, hplace, ok_bind, hfold]
    · rcases hrow with ⟨s', hs', hin⟩ | hrow
      · rcases List.mem_cons.mp hs' with rfl | hs'
        · exact .inr (hrows₁ z hz (.inl hin))
        · exact .inl ⟨s', hs', hin⟩
      · exact .inr (hrows₁ z hz (.inr hrow))

end StripPlan

namespace Image

/-- The image that comes of making its bytes in some way out of the shared part of a resize and a
blank image. -/
def assembled (img : Image) (settings : Settings α)
    (make : StripPlan → Image → Except (ResizeFailure α) Bytes) :
    Except (ResizeFailure α) Image := do
  let plan ← (StripPlan.build img settings).mapError ResizeFailure.error
  let blank ← (Image.blank settings.target img.format).mapError ResizeFailure.ofFailure
  let data ← make plan blank
  if packed : data.size = byteCount blank.size blank.format then
    return { blank with data, packed }
  else
    throw .outOfBounds

theorem resizeInStrips_eq (img : Image) (settings : Settings α) (threads : Nat) :
    img.resizeInStrips settings threads = img.assembled settings fun plan _ => do
      let parts ← (Strips.cut settings.height.toNat
        (Strips.rows settings.height.toNat threads)).mapM fun s => plan.strip settings s.1 s.2
      return parts.foldl (· ++ ·) #[] := by
  unfold resizeInStrips assembled
  refine bind_congr fun plan => bind_congr fun blank => ?_
  rw [bind_assoc]
  rfl

/-- Resizes an image strip by strip in a given order, each strip written to its place. -/
def resizeInOrder (img : Image) (settings : Settings α) (order : List (Nat × Nat)) :
    Except (ResizeFailure α) Image :=
  img.assembled settings fun plan blank => order.foldlM (plan.place settings) blank.data

/-- Whoever makes the bytes of the whole image's rows makes the resized image, and the two ways
fail together. -/
theorem assembled_eq_resize {img : Image} {settings : Settings α}
    {make : StripPlan → Image → Except (ResizeFailure α) Bytes}
    (hmake : ∀ {plan blank chain}, StripPlan.build img settings = .ok plan →
      Image.blank settings.target img.format = .ok blank →
      ((Chain.base img.source : Chain α Unit).forSettings settings).result = .ok chain →
      byteCount settings.target img.format < Bytes.limit →
      make plan blank =
        .ok (Bytes.stack (chain.picture img.row) (List.range' 0 settings.height.toNat))) :
    img.assembled settings make = (img.resize settings).result := by
  -- a plan is refused when the chain is, and otherwise only memory can be missing
  cases hplan : StripPlan.build img settings with
  | error e =>
    have hchain := StripPlan.build_bind_chain img settings
    rw [hplan, error_bind] at hchain
    simp only [assembled, resize, hplan, ← hchain, Except.mapError, error_bind]
  | ok plan =>
    obtain ⟨-, chain, -, hchain⟩ := StripPlan.exists_chain hplan
    by_cases held : byteCount settings.target img.format < Bytes.limit
    · obtain ⟨out, hout, hsize, hformat, hdata⟩ := resize_of_forSettings hchain held
      have hblank := blank_of_held held
      have packed : (Bytes.stack (chain.picture img.row)
          (List.range' 0 settings.height.toNat)).size = byteCount settings.target img.format := by
        rw [← hdata, out.packed, hsize, hformat]
      simp only [assembled, hplan, hblank, hmake hplan hblank hchain held, Except.mapError, ok_bind,
        dif_pos packed, hout]
      cases out
      cases hsize
      cases hformat
      cases hdata
      rfl
    · obtain ⟨-, -, hsize, hformat⟩ := Chain.built_of_forSettings (.base img.source) hchain
      have hsize' : chain.source.size = settings.target := hsize
      have hformat' : chain.source.format = img.format := hformat
      obtain ⟨e, hblank⟩ := blank_of_not_held held
      simp only [assembled, resize, Source.drain, hplan, hchain, hsize', hformat', hblank,
        Except.mapError, ok_bind, error_bind]

/-- The strips of a resize are a partition of its rows, whatever the number of threads, and
none is empty. Put together from the first to the last, or each written to its place in any order
at all, they are the resized image; and they fail when the resize of the whole fails, with the same
error. -/
theorem strips_eq_resize (img : Image) (settings : Settings α) (threads : Nat)
    {strips : List (Nat × Nat)} (hstrips : strips = Strips.cut settings.height.toNat
      (Strips.rows settings.height.toNat threads)) :
    (strips.flatMap (fun s => List.range' s.1 s.2) = List.range settings.height.toNat ∧
        ∀ s ∈ strips, 0 < s.2) ∧
      img.resizeInStrips settings threads = (img.resize settings).result ∧
      ∀ order, order.Perm strips →
        img.resizeInOrder settings order = (img.resize settings).result := by
  have hrows := Strips.rows_pos settings.height.toNat threads
  subst hstrips
  refine ⟨⟨Strips.flatMap_cut hrows, fun s hs => Strips.pos_of_mem_cut hrows hs⟩, ?_,
    fun order horder => ?_⟩
  · rw [resizeInStrips_eq]
    refine assembled_eq_resize fun {plan blank chain} hplan _ hchain held => ?_
    rw [mapM_eq_pure_map fun s hs =>
      StripPlan.strip_eq_stack hplan hchain held (Strips.le_of_mem_cut hrows hs)]
    rw [pure_bind, Bytes.foldl_stack, Strips.flatMap_cut hrows, Array.empty_append,
      List.range_eq_range']
    rfl
  · refine assembled_eq_resize fun {plan blank chain} hplan hblank hchain held => ?_
    have hblanksize : blank.data.size =
        settings.height.toNat * img.format.rowBytes settings.width := by
      rw [blank_of_held held, Except.ok.injEq] at hblank
      subst hblank
      rw [Array.size_replicate, byteCount, Nat.mul_comm]
      rfl
    obtain ⟨data, hdata, hsize, hplaced⟩ := StripPlan.foldlM_place hplan hchain held
      (fun s hs => Strips.le_of_mem_cut hrows (horder.mem_iff.mp hs)) hblanksize
    have hlen : ∀ z ∈ List.range' 0 settings.height.toNat,
        (chain.picture img.row z).size = img.format.rowBytes settings.width := by
      intro z hz
      exact size_picture_of_forSettings hchain (by simpa using List.mem_range'_1.mp hz)
    rw [hdata, Bytes.eq_of_parts hsize (by rw [Bytes.size_stack hlen, List.length_range'])]
    intro z hz
    obtain ⟨s, hs, hin⟩ := (Strips.exists_mem_cut_iff hrows).mpr hz
    rw [hplaced z hz (.inl ⟨s, horder.mem_iff.mpr hs, hin⟩),
      Bytes.part_stack hlen (by rwa [List.length_range']), List.getElem_range', Nat.zero_add,
      Nat.one_mul]

/-- Two strips, the last one short, made in the wrong order. -/
theorem reversed_strips_of_grey_column :
    let img : Image := ⟨⟨1, 1⟩, .grey8, #[7], by decide, by decide⟩
    let settings : Settings Float := ⟨1, 20, .nearest, 1.0, ⟨50, 1.0, 0⟩⟩
    Strips.cut 20 (Strips.rows 20 1) = [(0, 16), (16, 4)] ∧
      img.resizeInOrder settings [(16, 4), (0, 16)] = (img.resize settings).result := by
  intro img settings
  have hcut : Strips.cut 20 (Strips.rows 20 1) = [(0, 16), (16, 4)] := by decide
  obtain ⟨-, -, horder⟩ := strips_eq_resize img settings 1 rfl
  refine ⟨hcut, horder _ ?_⟩
  change List.Perm _ (Strips.cut 20 (Strips.rows 20 1))
  rw [hcut]
  exact List.Perm.swap _ _ _

end Image

end Resampler

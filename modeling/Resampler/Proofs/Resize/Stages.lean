import Resampler.Proofs.Image
import Resampler.Proofs.Stage.Chained
import Resampler.Resize.Basic

/-!
The stages that settings call for.

Settings that are accepted lead to a chain that was built stage by stage, over the same
source, and that has the target's size. Two things follow for the resizing of an image: no
request to its chain can fail unless the request is malformed, and the outcome of the
resize is the image of the chain's rows.
-/

namespace Resampler

/-- What is found out when settings are accepted. -/
theorem Settings.check_eq_ok_iff {α : Type} [Analytic α] {settings : Settings α} :
    settings.check = .ok () ↔ settings.width ≠ 0 ∧ settings.height ≠ 0 ∧
      (∃ f, settings.interpolation = .ok f) ∧ settings.sharpen.check = .ok () := by
  unfold check
  by_cases hempty : settings.width = 0 ∨ settings.height = 0
  · rw [if_pos hempty]
    constructor
    · intro h
      cases h
    · rintro ⟨hwidth, hheight, -⟩
      exact (hempty.elim hwidth hheight).elim
  · obtain ⟨hwidth, hheight⟩ := not_or.mp hempty
    rw [if_neg hempty]
    constructor
    · intro h
      obtain ⟨f, hf, h⟩ := bind_eq_ok_iff.mp h
      exact ⟨hwidth, hheight, ⟨f, hf⟩, h⟩
    · rintro ⟨-, -, ⟨f, hf⟩, h⟩
      exact bind_eq_ok_iff.mpr ⟨f, hf, h⟩

theorem Settings.target_pos {α : Type} [Analytic α] {settings : Settings α}
    (hcheck : settings.check = .ok ()) :
    0 < settings.target.width.toNat ∧ 0 < settings.target.height.toNat := by
  obtain ⟨hwidth, hheight, -⟩ := check_eq_ok_iff.mp hcheck
  exact ⟨Nat.pos_of_ne_zero fun h0 => hwidth (UInt32.toNat_inj.mp h0),
    Nat.pos_of_ne_zero fun h0 => hheight (UInt32.toNat_inj.mp h0)⟩

namespace Chain

variable {α σ : Type} [Analytic α] {c c' : Chain α σ}

/-- The chain for some settings before it is sharpened. -/
def staged (c : Chain α σ) (settings : Settings α) (f : Interpolation α) :
    Except (SetupError α) (Chain α σ) :=
  if c.size = settings.target then (RowKernel.ofFormat c.format).map fun _ => c
  else (c.resampled settings.target f).result

/-- What the construction for some settings results in, without its milestones. -/
theorem result_forSettings (c : Chain α σ) (settings : Settings α) :
    (c.forSettings settings).result = (do
      settings.check
      let f ← settings.interpolation
      let staged ← c.staged settings f
      if settings.sharpen.sharpens then (staged.sharpened settings.sharpen).result
      else pure staged) := by
  simp only [forSettings, Construction.result_bind, Construction.result_ofExcept,
    Construction.result_reach, Construction.result_ite, Construction.result_pure]
  congr 1
  ext1 _
  congr 1
  ext1 f
  by_cases hsame : c.size = settings.target
  · rw [if_neg (by simpa using hsame), staged, if_pos hsame]
    cases (RowKernel.ofFormat c.format : Except (SetupError α) RowKernel) <;> rfl
  · rw [if_pos (by simpa using hsame), staged, if_neg hsame]
    rfl

theorem target_of_staged {settings : Settings α} {f : Interpolation α}
    (h : c.staged settings f = .ok c') : c'.size = settings.target ∧ c'.format = c.format := by
  unfold staged at h
  split at h
  case isTrue hsame =>
    obtain ⟨_, -, rfl⟩ := map_eq_ok_iff.mp h
    exact ⟨hsame, rfl⟩
  case isFalse =>
    obtain ⟨plan, rfl, hsize, hformat⟩ := target_of_resampled h
    exact ⟨hsize, hformat⟩

theorem bottom_of_staged {settings : Settings α} {f : Interpolation α}
    (h : c.staged settings f = .ok c') : c'.bottom = c.bottom := by
  unfold staged at h
  split at h
  case isTrue =>
    obtain ⟨_, -, rfl⟩ := map_eq_ok_iff.mp h
    rfl
  case isFalse =>
    obtain ⟨plan, rfl, -⟩ := target_of_resampled h
    rfl

theorem built_of_staged (hc : c.Built) {settings : Settings α} {f : Interpolation α}
    (h : c.staged settings f = .ok c') : c'.Built ∧ c'.bottom = c.bottom := by
  refine ⟨?_, bottom_of_staged h⟩
  unfold staged at h
  split at h
  case isTrue =>
    obtain ⟨_, -, rfl⟩ := map_eq_ok_iff.mp h
    exact hc
  case isFalse =>
    obtain ⟨plan, rfl, -⟩ := target_of_resampled h
    exact .resample hc (.toSize h)

/-- Accepted settings lead to a chain over the same source that has the target's size. -/
theorem built_of_forSettings (hc : c.Built) {settings : Settings α}
    (h : (c.forSettings settings).result = .ok c') :
    c'.Built ∧ c'.bottom = c.bottom ∧ c'.size = settings.target ∧ c'.format = c.format := by
  rw [result_forSettings] at h
  obtain ⟨_, -, h⟩ := bind_eq_ok_iff.mp h
  obtain ⟨f, -, h⟩ := bind_eq_ok_iff.mp h
  obtain ⟨staged, hstaged, h⟩ := bind_eq_ok_iff.mp h
  obtain ⟨hbuilt, hbottom⟩ := built_of_staged hc hstaged
  obtain ⟨hsize, hformat⟩ := target_of_staged hstaged
  split at h
  case isTrue =>
    obtain ⟨plan, rfl, hsize', hformat'⟩ := target_of_sharpened h
    exact ⟨.sharpen hbuilt h, hbottom, hsize'.trans hsize, hformat'.trans hformat⟩
  case isFalse =>
    cases h
    exact ⟨hbuilt, hbottom, hsize, hformat⟩

/-- Settings that pass the check are not refused once the image has the target's size. -/
theorem exists_of_staged {settings : Settings α} {f : Interpolation α} {kernel : RowKernel}
    (hcheck : settings.check = .ok ()) (hkernel : RowKernel.ofFormat? c.format = some kernel)
    (hf : settings.interpolation = .ok f) (hstaged : c.staged settings f = .ok c') :
    ∃ chain, (c.forSettings settings).result = .ok chain := by
  obtain ⟨-, -, -, hsharpen⟩ := Settings.check_eq_ok_iff.mp hcheck
  obtain ⟨hwidth, hheight⟩ := Settings.target_pos hcheck
  obtain ⟨hsize, hformat⟩ := target_of_staged hstaged
  rw [result_forSettings, hcheck, ok_bind, hf, ok_bind, hstaged, ok_bind]
  split
  case isTrue hsharpens =>
    obtain ⟨plan, hplan⟩ := exists_sharpened (by rwa [hformat]) (by rwa [hsize]) (by rwa [hsize])
      hsharpen hsharpens
    exact ⟨_, hplan⟩
  case isFalse => exact ⟨_, rfl⟩

/-- Settings that pass the check are accepted for every image that has pixels of a format with a
row kernel. -/
theorem exists_forSettings {settings : Settings α} {kernel : RowKernel}
    (hcheck : settings.check = .ok ()) (hkernel : RowKernel.ofFormat? c.format = some kernel)
    (hwidth : 0 < c.size.width.toNat) (hheight : 0 < c.size.height.toNat) :
    ∃ chain, (c.forSettings settings).result = .ok chain := by
  obtain ⟨-, -, ⟨f, hf⟩, -⟩ := Settings.check_eq_ok_iff.mp hcheck
  obtain ⟨hwidth', hheight'⟩ := Settings.target_pos hcheck
  suffices ∃ staged, c.staged settings f = .ok staged by
    obtain ⟨_, hstaged⟩ := this
    exact exists_of_staged hcheck hkernel hf hstaged
  unfold staged
  split
  case isTrue =>
    rw [RowKernel.ofFormat_eq_ok_iff.mpr hkernel]
    exact ⟨c, rfl⟩
  case isFalse =>
    obtain ⟨plan, hplan⟩ :=
      exists_resampled settings.target hkernel hwidth hheight hwidth' hheight' f
    exact ⟨_, hplan⟩

end Chain

namespace Image

variable {α : Type} [Analytic α] {img : Image} {settings : Settings α} {chain : Chain α Unit}

/-- The chain of accepted settings serves its image and never fails. -/
theorem serves_of_forSettings
    (h : ((Chain.base img.source : Chain α Unit).forSettings settings).result = .ok chain) :
    chain.source.Serves (chain.Coherent (fun _ => True) img.row) (chain.picture img.row)
      fun _ => False := by
  obtain ⟨hbuilt, hbottom, -⟩ := Chain.built_of_forSettings (.base img.source) h
  refine hbuilt.serves ?_
  rw [hbottom]
  exact img.serves

/-- Resizing with accepted settings gives the image of the chain's rows, if it can be held. -/
theorem resize_of_forSettings
    (h : ((Chain.base img.source : Chain α Unit).forSettings settings).result = .ok chain)
    (held : byteCount settings.target img.format < Bytes.limit) :
    ∃ out, (img.resize settings).result = .ok out ∧ out.size = settings.target ∧
      out.format = img.format ∧
      out.data = Bytes.stack (chain.picture img.row) (List.range' 0 settings.height.toNat) := by
  obtain ⟨-, -, hsize, hformat⟩ := Chain.built_of_forSettings (.base img.source) h
  have hsize' : chain.source.size = settings.target := hsize
  have hformat' : chain.source.format = img.format := hformat
  obtain ⟨out, hout, houtsize, houtformat, hdata⟩ := (serves_of_forSettings h).drain
    (chain.coherent_start img.row (s := ()) trivial) (by rwa [hsize', hformat'])
  rw [hsize'] at hdata
  refine ⟨out, ?_, houtsize.trans hsize', houtformat.trans hformat', hdata⟩
  simp only [resize, h, hout, Except.mapError]

theorem size_picture_of_forSettings
    (h : ((Chain.base img.source : Chain α Unit).forSettings settings).result = .ok chain) {y : Nat}
    (hy : y < settings.height.toNat) :
    (chain.picture img.row y).size = img.format.rowBytes settings.width := by
  obtain ⟨-, -, hsize, hformat⟩ := Chain.built_of_forSettings (.base img.source) h
  have hsize' : chain.source.size = settings.target := hsize
  have hformat' : chain.source.format = img.format := hformat
  have hrow := (serves_of_forSettings h).size_row y (by rw [hsize']; exact hy)
  rwa [hsize', hformat'] at hrow

end Image

end Resampler

import Resampler.Proofs.Stage.Interrupted

/-!
Whose fault an error is.

A caller may want to ask again after a failure of the source, and never again for
something that it should not have asked for in the first place. What it can go by is
`PixelError.blamesRequest`. Views and stages check a request before anything else and
answer a malformed one with what the check found, in all of their states; as long as
nothing fails below them these are their only errors. The check blames the request for all
that can be wrong with it but one thing: if the bytes of a buffer for it cannot even be
counted, the error reads like the failure of a source, and asking again is as useless
as it was the first time.
-/

namespace Resampler

namespace Request

/-- The request is for pixels of the image and its rows do not overlap, but the bytes of a buffer
for it cannot be counted. -/
def Uncountable (q : Request) (size : Size) (format : PixelFormat) : Prop :=
  (Region.ofSize size).contains q.region ∧ format.rowBytes q.region.width ≤ q.stride ∧
    Word.limit64 ≤ q.required (format.rowBytes q.region.width)

variable {q : Request} {size : Size} {format : PixelFormat} {bufferSize : Nat} {cause : PixelError}

/-- What can be wrong with a request, in the order in which it is found out. -/
theorem cases_of_check_error (h : q.check size format bufferSize = .error cause) :
    (¬(Region.ofSize size).contains q.region ∧ cause = .outsideImage q.region size) ∨
    (q.stride < format.rowBytes q.region.width ∧
      cause = .strideTooShort q.stride (format.rowBytes q.region.width) q.region.width) ∨
    (q.Uncountable size format ∧
      cause = .tooManyBytes ⟨q.region.width, q.region.height⟩) ∨
    (q.required (format.rowBytes q.region.width) < Word.limit64 ∧
      cause = .bufferTooSmall bufferSize (q.required (format.rowBytes q.region.width))) := by
  unfold check at h
  simp only at h
  split at h
  case isTrue houtside =>
    cases h
    exact .inl ⟨by simpa using houtside, rfl⟩
  case isFalse hinside =>
    split at h
    case isTrue hshort =>
      cases h
      exact .inr (.inl ⟨hshort, rfl⟩)
    case isFalse hlong =>
      split at h
      case isTrue hmany =>
        cases h
        exact .inr (.inr (.inl ⟨⟨by simpa using hinside, Nat.le_of_not_lt hlong, hmany⟩, rfl⟩))
      case isFalse hfew =>
        split at h
        · cases h
          exact .inr (.inr (.inr ⟨Nat.lt_of_not_le hfew, rfl⟩))
        · cases h

/-- The check blames every malformed request except those whose bytes cannot be counted. -/
theorem blamesRequest_of_check (h : q.check size format bufferSize = .error cause) :
    (cause.blamesRequest = true ↔ ¬q.Uncountable size format) ∧
      (q.Uncountable size format → cause = .tooManyBytes ⟨q.region.width, q.region.height⟩) := by
  rcases cases_of_check_error h with ⟨houtside, rfl⟩ | ⟨hshort, rfl⟩ | ⟨hmany, rfl⟩ | ⟨hfew, rfl⟩
  · have hnot : ¬q.Uncountable size format := fun hall => houtside hall.1
    exact ⟨iff_of_true rfl hnot, fun hall => (hnot hall).elim⟩
  · have hnot : ¬q.Uncountable size format := fun hall => Nat.not_lt.mpr hall.2.1 hshort
    exact ⟨iff_of_true rfl hnot, fun hall => (hnot hall).elim⟩
  · exact ⟨iff_of_false nofun fun hnot => hnot hmany, fun _ => rfl⟩
  · have hnot : ¬q.Uncountable size format := fun hall => Nat.not_lt.mpr hall.2.2 hfew
    exact ⟨iff_of_true rfl hnot, fun hall => (hnot hall).elim⟩

end Request

namespace Source

variable {σ : Type}

/-- The failure is the verdict of the check. It stays the answer to the request in every state,
nothing is done for the request, and it is blamed unless its bytes cannot be counted. -/
structure Rejects (src : Source σ) (q : Request) (bufferSize : Nat) (cause : PixelError) :
    Prop where
  check_eq : q.check src.size src.format bufferSize = .error cause
  again : ∀ (buffer : Bytes) (s : σ), buffer.size = bufferSize →
    src.copy q buffer s = ⟨.error (.error cause), buffer, s, []⟩
  blames_iff : cause.blamesRequest = true ↔ ¬q.Uncountable src.size src.format
  eq_tooManyBytes : q.Uncountable src.size src.format →
    cause = .tooManyBytes ⟨q.region.width, q.region.height⟩

theorem rejects_ofRows {size : Size} {format : PixelFormat} {announce : Region → List Event}
    {produce : Region → Nat → Pull σ Bytes} {q : Request} {bufferSize : Nat} {cause : PixelError}
    (hq : q.check size format bufferSize = .error cause) :
    (ofRows size format announce produce).Rejects q bufferSize cause where
  check_eq := hq
  again buffer s hsize := by
    rw [← hsize] at hq
    simp only [ofRows, replyByRows, hq]
  blames_iff := (Request.blamesRequest_of_check hq).1
  eq_tooManyBytes := (Request.blamesRequest_of_check hq).2

end Source

/-- The request was accepted, and a fetch for one of its rows failed. -/
def Stage.Disturbed {α σ : Type} (stage : Stage α) (below : Source σ) (q : Request)
    (buffer : Bytes) (s : Resampling.State σ) : Prop :=
  q.check stage.tables.size stage.tables.format buffer.size =
      .ok (stage.tables.format.rowBytes q.region.width) ∧
    ∃ k e, stage.Interrupts below q buffer s k e

namespace Chain

variable {α σ : Type} [Analytic α] {below : Chain α σ} {stage : Stage α}

theorem Takes.rejects (hstage : below.Takes stage) {s₀ : below.State}
    (asked : List (Request × Bytes)) {q : Request} {buffer : Bytes} {e : Failure}
    {s : Resampling.State below.State}
    (hs : s = (stage.source below.source).after (.initial s₀) asked)
    (herr : ((stage.source below.source).copy q buffer s).result = .error e)
    (hquiet : ¬stage.Disturbed below.source q buffer s) :
    ∃ cause, e = .error cause ∧ (stage.source below.source).Rejects q buffer.size cause := by
  obtain ⟨-, haccepted⟩ := copy_interrupted hstage asked hs rfl
  cases hq : q.check stage.tables.size stage.tables.format buffer.size with
  | ok n =>
    obtain ⟨k, hfault⟩ := ((haccepted n hq).1 e).mp herr
    obtain ⟨-, rfl, -⟩ := Request.check_eq_ok_iff.mp hq
    exact (hquiet ⟨hq, k, e, hfault⟩).elim
  | error cause =>
    rw [Stage.copy_of_check_error hq] at herr
    cases herr
    refine ⟨cause, rfl, ?_⟩
    rw [Stage.source_eq]
    exact Source.rejects_ofRows hq

/-- An error of a view, or one of a stage below which nothing has failed, is the verdict of the
check: the request is to blame, unless the bytes of a buffer for it cannot be counted, and
it can only fail again. -/
theorem rejects_of_unserved :
    (∀ {v : View}, v.InMemory → ∀ (q : Request) (buffer : Bytes) (s : σ) (e : Failure),
      ((v.source : Source σ).copy q buffer s).result = .error e →
        ∃ cause, e = .error cause ∧ (v.source : Source σ).Rejects q buffer.size cause) ∧
    ∀ {below : Chain α σ} {stage : Stage α}, below.Takes stage →
      ∀ (s₀ : below.State) (asked : List (Request × Bytes)) (q : Request) (buffer : Bytes)
        (s : Resampling.State below.State) (e : Failure),
        s = (stage.source below.source).after (.initial s₀) asked →
        ((stage.source below.source).copy q buffer s).result = .error e →
        ¬stage.Disturbed below.source q buffer s →
          ∃ cause, e = .error cause ∧
            (stage.source below.source).Rejects q buffer.size cause := by
  refine ⟨fun {v} hv q buffer s e herr => ?_, fun hstage s₀ asked q buffer s e hs herr hquiet =>
    hstage.rejects asked hs herr hquiet⟩
  rcases hv.serves.check_or_fault (s := s) trivial herr with ⟨cause, hq, rfl⟩ | hfault
  · exact ⟨cause, rfl, Source.rejects_ofRows hq⟩
  · exact hfault.elim

/-- A pair of grey pixels, viewed with rows that overlap in the request, and a stage on them that
has met a failure and is then given no room. -/
theorem rejects_of_unserved_grey_pair :
    let img : Image := ⟨⟨1, 2⟩, .grey8, #[10, 200], by decide, by decide⟩
    let below : Chain Float (Source.Failing Unit) := .base (img.source.failing 1)
    let asked : List (Request × Bytes) := [(⟨⟨0, 0, 1, 2⟩, 1⟩, #[0, 0])]
    (img.source : Source Unit).Rejects ⟨⟨0, 0, 1, 2⟩, 0⟩ 2 (.strideTooShort 0 1 1) ∧
      (Stage.nearestPair.source below.source).Rejects ⟨⟨0, 0, 1, 2⟩, 1⟩ 1 (.bufferTooSmall 1 2) ∧
        ((Stage.nearestPair.source below.source).copy ⟨⟨0, 0, 1, 2⟩, 1⟩ #[0]
          ((Stage.nearestPair.source below.source).after (.initial ⟨(), 1, 0⟩) asked)).result =
            .error (.error (.bufferTooSmall 1 2)) := by
  intro img below asked
  have hstage : below.Takes .nearestPair := takes_nearestPair rfl rfl
  obtain ⟨hviews, -⟩ := rejects_of_unserved (α := Float) (σ := Unit)
  obtain ⟨-, hstages⟩ := rejects_of_unserved (α := Float) (σ := Source.Failing Unit)
  obtain ⟨_, heq, hview⟩ := hviews (.ofImage img) ⟨⟨0, 0, 1, 2⟩, 0⟩ #[0, 0] () _ rfl
  cases heq
  have hcheck : (Request.mk ⟨0, 0, 1, 2⟩ 1).check Stage.nearestPair.tables.size
      Stage.nearestPair.tables.format (#[0] : Bytes).size =
        .error (.bufferTooSmall 1 2) := rfl
  have herr : ((Stage.nearestPair.source below.source).copy ⟨⟨0, 0, 1, 2⟩, 1⟩ #[0]
      ((Stage.nearestPair.source below.source).after (.initial ⟨(), 1, 0⟩) asked)).result =
        .error (.error (.bufferTooSmall 1 2)) := by
    rw [Stage.copy_of_check_error hcheck]
  have hquiet : ¬Stage.nearestPair.Disturbed below.source ⟨⟨0, 0, 1, 2⟩, 1⟩ #[0]
      ((Stage.nearestPair.source below.source).after (.initial ⟨(), 1, 0⟩) asked) := by
    rintro ⟨haccepted, -⟩
    rw [hcheck] at haccepted
    cases haccepted
  obtain ⟨_, heq, hrejects⟩ := hstages hstage ⟨(), 1, 0⟩ asked _ _ _ _ rfl herr hquiet
  cases heq
  exact ⟨hview, hrejects, herr⟩

/-- A column of three grey pixels is asked for with its rows so far apart that the place of the
last one is no word. Nothing can fail here, and still the error does not blame the request. -/
theorem not_blamed_grey_column :
    let img : Image := ⟨⟨1, 3⟩, .grey8, #[1, 2, 3], by decide, by decide⟩
    let reply := (img.source : Source Unit).copy ⟨⟨0, 0, 1, 3⟩, 2 ^ 63⟩ #[0, 0, 0] ()
    reply.result = .error (.error (.tooManyBytes ⟨1, 3⟩)) ∧
      ¬∀ cause, reply.result = .error (.error cause) → cause.blamesRequest = true := by
  intro img reply
  have herr : reply.result = .error (.error (.tooManyBytes ⟨1, 3⟩)) := by decide +kernel
  refine ⟨herr, fun hblames => ?_⟩
  cases hblames _ herr

end Chain

end Resampler

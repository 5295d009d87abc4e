import Resampler.Proofs.Stage.Kinds

/-!
How far a request gets.

The rows of a request are made one after the other, so that a request stands, at each
moment, where a request for its first rows would have ended. `Request.top` is this shorter
request. `Stage.lay` is what a stage has done of an accepted request after some of its
rows, and `lay_succ` what the next row adds: the rows that it needs are fetched, and either
it is written below the others or nothing is written at all.
-/

namespace Resampler

namespace Request

/-- The request for the first `k` rows. -/
def top (q : Request) (k : Nat) : Request :=
  ⟨{ q.region with height := UInt32.ofNat k }, q.stride⟩

@[simp] theorem top_height (q : Request) : q.top q.region.height.toNat = q := by
  simp [top]

theorem height_top {q : Request} {k : Nat} (hk : k ≤ q.region.height.toNat) :
    (q.top k).region.height.toNat = k :=
  toNat_ofNat_of_le hk

/-- What a request may ask for, its first rows may be asked for too. -/
theorem check_top {q : Request} {size : Size} {format : PixelFormat} {bufferSize n k : Nat}
    (hq : q.check size format bufferSize = .ok n) (hk : k ≤ q.region.height.toNat) :
    (q.top k).check size format bufferSize = .ok n := by
  obtain ⟨hin, hn, hstride, hword, hroom⟩ := check_eq_ok_iff.mp hq
  obtain ⟨hright, hbottom⟩ := (Region.contains_ofSize_iff _ _).mp hin
  have hrequired : (q.top k).required n ≤ q.required n := by
    unfold required
    rw [height_top hk]
    by_cases hzero : k = 0
    · rw [if_pos hzero]
      exact Nat.zero_le _
    · rw [if_neg hzero, if_neg (by omega)]
      exact Nat.add_le_add_right (Nat.mul_le_mul_right _ (by omega)) _
  refine check_eq_ok_iff.mpr ⟨?_, hn, hstride, by omega, by omega⟩
  refine (Region.contains_ofSize_iff _ _).mpr ⟨hright, ?_⟩
  rw [Region.bottom, height_top hk]
  exact Nat.le_trans (Nat.add_le_add_left hk _) hbottom

theorem bounds_of_check {q : Request} {size : Size} {format : PixelFormat} {bufferSize n k : Nat}
    (hq : q.check size format bufferSize = .ok n) (hk : k < q.region.height.toNat) :
    q.region.y.toNat + k < size.height.toNat ∧
      q.region.x.toNat + q.region.width.toNat ≤ size.width.toNat ∧
      k * q.stride + n ≤ bufferSize := by
  obtain ⟨hin, -, -, -, hroom⟩ := check_eq_ok_iff.mp hq
  obtain ⟨hright, hbottom⟩ := (Region.contains_ofSize_iff _ _).mp hin
  rw [required, if_neg (by omega)] at hroom
  have hrow : k * q.stride ≤ (q.region.height.toNat - 1) * q.stride :=
    Nat.mul_le_mul_right _ (by omega)
  rw [Region.bottom] at hbottom
  exact ⟨by omega, hright, by omega⟩

end Request

namespace Source

variable {σ : Type} {produce : Nat → Pull σ Bytes} {stride r n : Nat} {buffer : Bytes} {s : σ}

theorem layRows_one_of_error {e : Failure} (hrow : (produce r s).result = .error e) :
    layRows produce stride r 1 buffer s =
      ⟨.error e, buffer, (produce r s).state, (produce r s).events⟩ := by
  simp only [layRows, hrow]

theorem layRows_one_of_ok {row between : Bytes} (hrow : (produce r s).result = .ok row)
    (hwrite : buffer.blit? (r * stride) row = some between) :
    layRows produce stride r 1 buffer s =
      ⟨.ok (), between, (produce r s).state, (produce r s).events⟩ := by
  simp only [layRows, hrow, hwrite, List.append_nil]

theorem layRows_cons_of_ok {row between : Bytes} (hrow : (produce r s).result = .ok row)
    (hwrite : buffer.blit? (r * stride) row = some between) :
    layRows produce stride r (n + 1) buffer s =
      let rest := layRows produce stride (r + 1) n between (produce r s).state
      { rest with events := (produce r s).events ++ rest.events } := by
  simp only [layRows, hrow, hwrite]

theorem layRows_succ_of_error {e : Failure}
    (h : (layRows produce stride r n buffer s).result = .error e) :
    layRows produce stride r (n + 1) buffer s = layRows produce stride r n buffer s := by
  induction n generalizing r buffer s with
  | zero => cases h
  | succ n ih =>
    cases hrow : (produce r s).result with
    | error e => simp only [layRows, hrow]
    | ok row =>
      cases hwrite : buffer.blit? (r * stride) row with
      | none => simp only [layRows, hrow, hwrite]
      | some between =>
        rw [layRows_cons_of_ok hrow hwrite] at h ⊢
        rw [layRows_cons_of_ok hrow hwrite, ih h]

theorem layRows_succ_of_ok {u : Unit} (h : (layRows produce stride r n buffer s).result = .ok u) :
    layRows produce stride r (n + 1) buffer s =
      let made := layRows produce stride r n buffer s
      let last := layRows produce stride (r + n) 1 made.buffer made.state
      { last with events := made.events ++ last.events } := by
  induction n generalizing r buffer s with
  | zero => rfl
  | succ n ih =>
    cases hrow : (produce r s).result with
    | error e =>
      simp only [layRows, hrow] at h
      cases h
    | ok row =>
      cases hwrite : buffer.blit? (r * stride) row with
      | none =>
        simp only [layRows, hrow, hwrite] at h
        cases h
      | some between =>
        rw [layRows_cons_of_ok hrow hwrite] at h ⊢
        rw [layRows_cons_of_ok hrow hwrite, ih h, show r + 1 + n = r + (n + 1) by omega]
        simp only [List.append_assoc]

end Source

namespace Stage

variable {α σ : Type} {stage : Stage α} {below : Source σ}

/-- Row `r` of a request. -/
def produce (stage : Stage α) (below : Source σ) (q : Request) (r : Nat) :
    Pull (Resampling.State σ) Bytes :=
  stage.row below (q.region.y.toNat + r) q.region.x.toNat q.region.width.toNat

/-- What the stage has done of a request after the first `k` of its rows. -/
def lay (stage : Stage α) (below : Source σ) (q : Request) (k : Nat) (buffer : Bytes)
    (s : Resampling.State σ) : Reply (Resampling.State σ) :=
  Source.layRows (stage.produce below q) q.stride 0 k buffer s

theorem copy_of_check_error {q : Request} {buffer : Bytes} {e : PixelError}
    (hq : q.check stage.tables.size stage.tables.format buffer.size = .error e)
    (s : Resampling.State σ) :
    (stage.source below).copy q buffer s = ⟨.error (.error e), buffer, s, []⟩ := by
  rw [source_eq]
  simp only [Source.ofRows, Source.replyByRows, hq]

/-- Only a request that passes the check is answered. -/
theorem check_of_ok {q : Request} {buffer : Bytes} {s : Resampling.State σ}
    (hok : ((stage.source below).copy q buffer s).result = .ok ()) :
    q.check stage.tables.size stage.tables.format buffer.size =
      .ok (stage.tables.format.rowBytes q.region.width) := by
  cases hq : q.check stage.tables.size stage.tables.format buffer.size with
  | error e =>
    rw [copy_of_check_error hq] at hok
    cases hok
  | ok n =>
    obtain ⟨-, rfl, -⟩ := Request.check_eq_ok_iff.mp hq
    rfl

/-- The answer to a request for the first rows of an accepted one. -/
theorem copy_top {q : Request} {buffer : Bytes} {n k : Nat}
    (hq : q.check stage.tables.size stage.tables.format buffer.size = .ok n)
    (hk : k ≤ q.region.height.toNat) (s : Resampling.State σ) :
    (stage.source below).copy (q.top k) buffer s =
      { stage.lay below q k buffer s with
        events := stage.announce (q.top k).region ++ (stage.lay below q k buffer s).events } := by
  rw [source_eq, Source.copy_ofRows (Request.check_top hq hk), Request.height_top hk]
  rfl

theorem copy_eq {q : Request} {buffer : Bytes} {n : Nat}
    (hq : q.check stage.tables.size stage.tables.format buffer.size = .ok n)
    (s : Resampling.State σ) :
    (stage.source below).copy q buffer s =
      { stage.lay below q q.region.height.toNat buffer s with
        events := stage.announce q.region ++
          (stage.lay below q q.region.height.toNat buffer s).events } := by
  rw [source_eq, Source.copy_ofRows hq]
  rfl

theorem size_lay (q : Request) (k : Nat) (buffer : Bytes) (s : Resampling.State σ) :
    (stage.lay below q k buffer s).buffer.size = buffer.size :=
  Source.size_layRows ..

theorem lay_succ_of_error {q : Request} {k : Nat} {buffer : Bytes} {s : Resampling.State σ}
    {e : Failure} (h : (stage.lay below q k buffer s).result = .error e) :
    stage.lay below q (k + 1) buffer s = stage.lay below q k buffer s :=
  Source.layRows_succ_of_error h

/-- What failed stays failed, so what succeeded in the end did so all along. -/
theorem lay_ok_of_le {q : Request} {buffer : Bytes} {s : Resampling.State σ} {u : Unit}
    {m k : Nat} (hkm : k ≤ m) (h : (stage.lay below q m buffer s).result = .ok u) :
    (stage.lay below q k buffer s).result = .ok () := by
  induction m, hkm using Nat.le_induction with
  | base => exact h
  | succ m _ ih =>
    cases hr : (stage.lay below q m buffer s).result with
    | error e =>
      rw [lay_succ_of_error hr, hr] at h
      cases h
    | ok _ => exact ih hr

variable (hseat : stage.Seated below) {q : Request} {buffer : Bytes} {n : Nat}
  (hq : q.check stage.tables.size stage.tables.format buffer.size = .ok n)
include hseat hq

theorem Seated.room {k : Nat} (hk : k < q.region.height.toNat) {b : Bytes}
    (hb : b.size = buffer.size) (f : Nat → Nat → Nat) (x : Nat) :
    k * q.stride + (stage.tables.kernel.pixels f x q.region.width.toNat).size ≤ b.size := by
  obtain ⟨-, rfl, -⟩ := Request.check_eq_ok_iff.mp hq
  rw [hseat.tables.fits.size_run, hb]
  exact (Request.bounds_of_check hq hk).2.2

/-- The next row of a request. The rows that it needs are fetched, and if that fails the request
fails with it and the buffer stays as it is. Otherwise its pixels are written to their place. -/
theorem Seated.lay_succ {k : Nat} (hk : k < q.region.height.toNat) {s : Resampling.State σ}
    {made : Reply (Resampling.State σ)} (hmade : made = stage.lay below q k buffer s)
    (hok : made.result = .ok ()) (hw : stage.tables.Intact made.state.window) :
    (stage.lay below q (k + 1) buffer s).state =
        stage.loaded below (q.region.y.toNat + k) made.state ∧
      match (stage.fetchFor below (q.region.y.toNat + k) made.state).result with
      | .error e => (stage.lay below q (k + 1) buffer s).result = .error e ∧
          (stage.lay below q (k + 1) buffer s).buffer = made.buffer
      | .ok _ => (stage.lay below q (k + 1) buffer s).result = .ok () ∧ ∀ image,
          stage.tables.Holds image
              (stage.loaded below (q.region.y.toNat + k) made.state).window →
            made.buffer.blit? (k * q.stride) (stage.tables.kernel.pixels
                (stage.sample image (q.region.y.toNat + k)) q.region.x.toNat
                  q.region.width.toNat) =
              some (stage.lay below q (k + 1) buffer s).buffer := by
  obtain ⟨hlow, hright, -⟩ := Request.bounds_of_check hq hk
  obtain ⟨hstate, hresult⟩ := hseat.row_eq hw hlow hright
  have hsize : made.buffer.size = buffer.size := hmade ▸ size_lay q k buffer s
  have hlast : stage.lay below q (k + 1) buffer s =
      let last := Source.layRows (stage.produce below q) q.stride k 1 made.buffer made.state
      { last with events := made.events ++ last.events } := by
    subst hmade
    rw [lay, Source.layRows_succ_of_ok hok, Nat.zero_add]
    rfl
  rw [hlast]
  cases hr : (stage.fetchFor below (q.region.y.toNat + k) made.state).result with
  | error e =>
    rw [hr] at hresult
    have hfail : (stage.produce below q k made.state).result = .error e := hresult
    rw [Source.layRows_one_of_error hfail]
    exact ⟨hstate, rfl, rfl⟩
  | ok _ =>
    rw [hr] at hresult
    obtain ⟨image, hholds⟩ := (hseat.tables.intact_loaded _ hw).exists_holds
    have hpixels : (stage.produce below q k made.state).result = _ := hresult image hholds
    -- the check has made room for the row, so it is written
    obtain ⟨between, hwrite⟩ := Option.isSome_iff_exists.mp (Bytes.blit?_isSome_iff.mpr
      (hseat.room hq hk hsize (stage.sample image (q.region.y.toNat + k)) q.region.x.toNat))
    rw [Source.layRows_one_of_ok hpixels hwrite]
    refine ⟨hstate, rfl, fun other hother => ?_⟩
    have hsame := (hresult other hother).symm.trans hpixels
    rw [Except.ok.inj hsame]
    exact hwrite

/-- What every row keeps, be it made or not, the first rows of a request keep. -/
theorem Seated.lay_rule {P : Resampling.State σ → Prop}
    (hintact : ∀ s, P s → stage.tables.Intact s.window)
    (hloaded : ∀ s, P s → ∀ y < stage.tables.size.height.toNat, P (stage.loaded below y s))
    {k : Nat} (hk : k ≤ q.region.height.toNat) {s : Resampling.State σ} (hs : P s) :
    P (stage.lay below q k buffer s).state := by
  induction k with
  | zero => exact hs
  | succ k ih =>
    have hbefore := ih (Nat.le_of_succ_le hk)
    cases hr : (stage.lay below q k buffer s).result with
    | error e =>
      rw [lay_succ_of_error hr]
      exact hbefore
    | ok _ =>
      rw [(hseat.lay_succ hq hk rfl hr (hintact _ hbefore)).1]
      exact hloaded _ hbefore _ (Request.bounds_of_check hq hk).1

/-- Whatever becomes of its rows, a request leaves the window intact. -/
theorem Seated.intact_lay {k : Nat} (hk : k ≤ q.region.height.toNat) {s : Resampling.State σ}
    (hw : stage.tables.Intact s.window) :
    stage.tables.Intact (stage.lay below q k buffer s).state.window :=
  hseat.lay_rule hq (P := fun s => stage.tables.Intact s.window) (fun _ h => h)
    (fun _ h _ _ => hseat.tables.intact_loaded _ h) hk hw

/-- The answer to an accepted request for a single row. -/
theorem Seated.copy_line_eq (hone : q.region.height = 1) {s : Resampling.State σ}
    (hw : stage.tables.Intact s.window) :
    ((stage.source below).copy q buffer s).state = stage.loaded below q.region.y.toNat s ∧
      match (stage.fetchFor below q.region.y.toNat s).result with
      | .error e => ((stage.source below).copy q buffer s).result = .error e ∧
          ((stage.source below).copy q buffer s).buffer = buffer
      | .ok _ => ((stage.source below).copy q buffer s).result = .ok () := by
  have hheight : q.region.height.toNat = 1 := congrArg UInt32.toNat hone
  obtain ⟨hstate, hresult⟩ := hseat.lay_succ hq (k := 0) (by omega) rfl rfl hw
  rw [copy_eq hq, hheight]
  refine ⟨hstate, ?_⟩
  cases hr : (stage.fetchFor below q.region.y.toNat s).result with
  | error e =>
    have hfetch : (stage.fetchFor below (q.region.y.toNat + 0)
        (stage.lay below q 0 buffer s).state).result = .error e := hr
    rw [hfetch] at hresult
    exact hresult
  | ok u =>
    have hfetch : (stage.fetchFor below (q.region.y.toNat + 0)
        (stage.lay below q 0 buffer s).state).result = .ok u := hr
    rw [hfetch] at hresult
    exact hresult.1

omit hq in
/-- Fetching a whole row of the stage fails where the rows for it cannot be fetched, and the state
is that of the load. -/
theorem Seated.fetchRow_eq {y : Nat} {s : Resampling.State σ}
    (hw : stage.tables.Intact s.window) (hy : y < stage.tables.size.height.toNat) :
    ((stage.source below).fetchRow y s).state = stage.loaded below y s ∧
      match (stage.fetchFor below y s).result with
      | .error e => ((stage.source below).fetchRow y s).result = .error e
      | .ok _ => ∃ row, ((stage.source below).fetchRow y s).result = .ok row := by
  have hplace : (UInt32.ofNat y).toNat = y := toNat_ofNat_of_le (Nat.le_of_lt hy)
  have hline := Source.check_line stage.tables.format hy
    (Array.size_replicate (v := (0 : UInt8)))
  obtain ⟨hstate, hresult⟩ := hseat.copy_line_eq hline rfl hw
  simp only [Region.line, hplace] at hstate hresult
  simp only [Source.fetchRow, Region.line, size_source, format_source]
  refine ⟨hstate, ?_⟩
  split at hresult
  · rw [hresult.1]
    rfl
  · rw [hresult]
    exact ⟨_, rfl⟩

omit hq in
/-- What every row keeps, every request keeps. -/
theorem Seated.copy_rule {P : Resampling.State σ → Prop}
    (hintact : ∀ s, P s → stage.tables.Intact s.window)
    (hloaded : ∀ s, P s → ∀ y < stage.tables.size.height.toNat, P (stage.loaded below y s))
    (q : Request) (buffer : Bytes) {s : Resampling.State σ} (hs : P s) :
    P ((stage.source below).copy q buffer s).state := by
  cases hq : q.check stage.tables.size stage.tables.format buffer.size with
  | error e =>
    rw [copy_of_check_error hq]
    exact hs
  | ok n =>
    rw [copy_eq hq]
    exact hseat.lay_rule hq hintact hloaded le_rfl hs

omit hq in
theorem Seated.after_rule {P : Resampling.State σ → Prop}
    (hintact : ∀ s, P s → stage.tables.Intact s.window)
    (hloaded : ∀ s, P s → ∀ y < stage.tables.size.height.toNat, P (stage.loaded below y s))
    (asked : List (Request × Bytes)) {s : Resampling.State σ} (hs : P s) :
    P ((stage.source below).after s asked) := by
  induction asked generalizing s with
  | nil => exact hs
  | cons a asked ih => exact ih (hseat.copy_rule hintact hloaded a.1 a.2 hs)

omit hq in
theorem Seated.intact_copy (q : Request) (buffer : Bytes) {s : Resampling.State σ}
    (hw : stage.tables.Intact s.window) :
    stage.tables.Intact ((stage.source below).copy q buffer s).state.window :=
  hseat.copy_rule (P := fun s => stage.tables.Intact s.window) (fun _ h => h)
    (fun _ h _ _ => hseat.tables.intact_loaded _ h) q buffer hw

omit hq in
theorem Seated.intact_after (asked : List (Request × Bytes)) {s : Resampling.State σ}
    (hw : stage.tables.Intact s.window) :
    stage.tables.Intact ((stage.source below).after s asked).window :=
  hseat.after_rule (P := fun s => stage.tables.Intact s.window) (fun _ h => h)
    (fun _ h _ _ => hseat.tables.intact_loaded _ h) asked hw

end Stage

end Resampler

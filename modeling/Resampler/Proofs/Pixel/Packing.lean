import Resampler.Proofs.Pixel.Rows
import Resampler.RowKernel

/-!
Samples packed into bytes.

A row kernel stores the samples of a row one after the other. `pack` is the run
of bytes that this makes, so that storing samples is writing a run
(`storeFrom?_eq_blit?`) and loading one gives back what was packed
(`load?_pack`). `pixels` packs the channels of neighbouring pixels that are given
by a function of column and channel; a run of pixels cut out of a longer one is
again such a run (`part_pixels`), which is all that a request for a part of a row
needs.
-/

namespace Resampler

theorem mapM_eq_pure_map {m : Type → Type} [Monad m] [LawfulMonad m] {β γ : Type} {f : β → m γ}
    {g : β → γ} {xs : List β} (h : ∀ x ∈ xs, f x = pure (g x)) : xs.mapM f = pure (xs.map g) := by
  induction xs with
  | nil => simp
  | cons x xs ih =>
    rw [List.mapM_cons, h x List.mem_cons_self, ih fun y hy => h y (List.mem_cons_of_mem x hy)]
    simp

theorem drop_flatMap_of_length {β γ : Type} {f : β → List γ} {n : Nat}
    (h : ∀ x, (f x).length = n) (xs : List β) (i : Nat) :
    (xs.flatMap f).drop (i * n) = (xs.drop i).flatMap f := by
  induction xs generalizing i with
  | nil => simp
  | cons x xs ih =>
    cases i with
    | zero => simp
    | succ i =>
      rw [List.flatMap_cons, List.drop_succ_cons, ← ih i,
        show (i + 1) * n = (f x).length + i * n by rw [h]; ring, List.drop_length_add_append]

theorem take_flatMap_of_length {β γ : Type} {f : β → List γ} {n : Nat}
    (h : ∀ x, (f x).length = n) (xs : List β) (i : Nat) :
    (xs.flatMap f).take (i * n) = (xs.take i).flatMap f := by
  induction xs generalizing i with
  | nil => simp
  | cons x xs ih =>
    cases i with
    | zero => simp
    | succ i =>
      rw [List.flatMap_cons, List.take_succ_cons, List.flatMap_cons, ← ih i,
        show (i + 1) * n = (f x).length + i * n by rw [h]; ring, List.take_length_add_append]

theorem length_flatMap_of_length {β γ : Type} {f : β → List γ} {n : Nat}
    (h : ∀ x, (f x).length = n) (xs : List β) : (xs.flatMap f).length = xs.length * n := by
  induction xs with
  | nil => simp
  | cons x xs ih =>
    rw [List.flatMap_cons, List.length_append, h, ih, List.length_cons]
    ring

namespace SampleWidth

theorem max_le (w : SampleWidth) : w.max ≤ 65535 := by cases w <;> decide

/-- The bytes of one sample. -/
def encode (w : SampleWidth) (v : Nat) : List UInt8 :=
  match w with
  | eight => [UInt8.ofNat v]
  | sixteen => [UInt8.ofNat v, UInt8.ofNat (v / 256)]

/-- The bytes of samples, one after the other. -/
def pack (w : SampleWidth) (vs : List Nat) : Bytes := (vs.flatMap w.encode).toArray

@[simp] theorem length_encode (w : SampleWidth) (v : Nat) : (w.encode v).length = w.bytes := by
  cases w <;> rfl

@[simp] theorem size_pack (w : SampleWidth) (vs : List Nat) :
    (w.pack vs).size = vs.length * w.bytes := by
  rw [pack, List.size_toArray, length_flatMap_of_length w.length_encode]

theorem pack_cons (w : SampleWidth) (v : Nat) (vs : List Nat) :
    w.pack (v :: vs) = (w.encode v).toArray ++ w.pack vs := by
  simp [pack]

theorem store?_eq_blit? (w : SampleWidth) (row : Bytes) (i v : Nat) :
    w.store? row i v = row.blit? (i * w.bytes) (w.encode v).toArray := by
  cases hr : row.blit? (i * w.bytes) (w.encode v).toArray with
  | none =>
    have hlong : ¬i * w.bytes + (w.encode v).toArray.size ≤ row.size := by
      rw [← Bytes.blit?_isSome_iff, hr]
      simp
    rw [List.size_toArray, length_encode] at hlong
    cases w with
    | eight =>
      simp only [bytes] at hlong
      simp only [store?]
      rw [if_neg (by omega)]
    | sixteen =>
      simp only [bytes] at hlong
      simp only [store?]
      rw [if_neg (by omega)]
  | some r =>
    have hfit := Bytes.blit?_isSome_iff.mp (Option.isSome_of_mem hr)
    rw [List.size_toArray, length_encode] at hfit
    have hbytes := Bytes.getElem?_of_blit? hr
    rw [List.size_toArray, length_encode] at hbytes
    cases w with
    | eight =>
      simp only [bytes, Nat.mul_one] at hfit hbytes
      simp only [store?]
      rw [if_pos (by omega), Option.some.injEq]
      refine Array.ext_getElem? fun j => ?_
      rw [hbytes, Array.getElem?_setIfInBounds]
      by_cases hj : i = j
      · subst hj
        simp [encode, show i < row.size by omega]
      · rw [if_neg hj, if_neg (by omega)]
    | sixteen =>
      simp only [bytes] at hfit hbytes
      simp only [store?]
      rw [if_pos (by omega), Option.some.injEq]
      refine Array.ext_getElem? fun j => ?_
      rw [hbytes, Array.getElem?_setIfInBounds, Array.getElem?_setIfInBounds]
      by_cases hlo : j = 2 * i
      · subst hlo
        simp [encode, show 2 * i - i * 2 = 0 by omega, show i * 2 ≤ 2 * i by omega,
          show 2 * i < i * 2 + 2 by omega, show 2 * i < row.size by omega]
      · by_cases hhi : j = 2 * i + 1
        · subst hhi
          simp [encode, show 2 * i + 1 - i * 2 = 1 by omega, show i * 2 ≤ 2 * i + 1 by omega,
            show 2 * i + 1 < i * 2 + 2 by omega, show 2 * i + 1 < row.size by omega]
        · rw [if_neg (by omega), if_neg (by omega)]
          exact (if_neg (by omega)).symm

theorem storeFrom?_eq_blit? (w : SampleWidth) (row : Bytes) (i : Nat) (vs : List Nat)
    (hi : i * w.bytes ≤ row.size) :
    w.storeFrom? row i vs = row.blit? (i * w.bytes) (w.pack vs) := by
  induction vs generalizing row i with
  | nil =>
    rw [storeFrom?, Bytes.blit?, if_pos (by simpa [pack] using hi)]
    simp [pack, Nat.max_eq_right hi]
  | cons v vs ih =>
    have hnext : (i + 1) * w.bytes = i * w.bytes + (w.encode v).toArray.size := by
      rw [List.size_toArray, length_encode]
      ring
    rw [storeFrom?, pack_cons, ← Bytes.blit?_blit?, store?_eq_blit?, ← hnext]
    refine Option.bind_congr fun b hb => ih b (i + 1) ?_
    have hfit := Bytes.blit?_isSome_iff.mp (Option.isSome_of_mem hb)
    rw [Bytes.size_of_blit? hb]
    omega

theorem load?_isSome {w : SampleWidth} {row : Bytes} {i : Nat} (h : (i + 1) * w.bytes ≤ row.size) :
    (w.load? row i).isSome := by
  cases w with
  | eight =>
    simp only [bytes, Nat.mul_one] at h
    simp [load?, Array.getElem?_eq_getElem (show i < row.size by omega)]
  | sixteen =>
    simp only [bytes] at h
    simp [load?, Array.getElem?_eq_getElem (show 2 * i < row.size by omega),
      Array.getElem?_eq_getElem (show 2 * i + 1 < row.size by omega)]

theorem load?_le {w : SampleWidth} {row : Bytes} {i v : Nat} (h : w.load? row i = some v) :
    v ≤ w.max := by
  cases w with
  | eight =>
    obtain ⟨b, -, rfl⟩ := Option.map_eq_some_iff.mp h
    have := b.toNat_lt
    simp only [max]
    omega
  | sixteen =>
    simp only [load?] at h
    split at h
    case h_1 lo hi _ _ =>
      have := lo.toNat_lt
      have := hi.toNat_lt
      simp only [Option.some.injEq, max] at h ⊢
      omega
    case h_2 => cases h

/-- Bytes that hold whole samples are known by their samples. -/
theorem ext_load? {w : SampleWidth} {a b : Bytes} {n : Nat} (ha : a.size = n * w.bytes)
    (hb : b.size = n * w.bytes) (h : ∀ i < n, w.load? a i = w.load? b i) : a = b := by
  refine Array.ext (ha.trans hb.symm) fun i hi hi' => ?_
  rw [ha] at hi
  cases w with
  | eight =>
    simp only [bytes, Nat.mul_one] at ha hb hi
    have hbyte := h i hi
    simp only [load?, Array.getElem?_eq_getElem (show i < a.size by omega),
      Array.getElem?_eq_getElem (show i < b.size by omega), Option.map_some,
      Option.some.injEq] at hbyte
    exact UInt8.toNat_inj.mp hbyte
  | sixteen =>
    simp only [bytes] at ha hb hi
    -- the byte is one of the two of sample `i / 2`
    have hpair := h (i / 2) (by omega)
    simp only [load?, Array.getElem?_eq_getElem (show 2 * (i / 2) < a.size by omega),
      Array.getElem?_eq_getElem (show 2 * (i / 2) + 1 < a.size by omega),
      Array.getElem?_eq_getElem (show 2 * (i / 2) < b.size by omega),
      Array.getElem?_eq_getElem (show 2 * (i / 2) + 1 < b.size by omega),
      Option.some.injEq] at hpair
    have hlow := a[2 * (i / 2)].toNat_lt
    have hlow' := b[2 * (i / 2)].toNat_lt
    rcases Nat.mod_two_eq_zero_or_one i with heven | hodd
    · have hplace : 2 * (i / 2) = i := by omega
      simp only [hplace] at hpair hlow hlow'
      exact UInt8.toNat_inj.mp (by omega)
    · have hplace : 2 * (i / 2) + 1 = i := by omega
      simp only [hplace] at hpair
      exact UInt8.toNat_inj.mp (by omega)

/-- The samples of a part of a row are samples of the row. -/
theorem load?_part {w : SampleWidth} {row : Bytes} {start len i : Nat} (h : i < len) :
    w.load? (row.part (start * w.bytes) (len * w.bytes)) i = w.load? row (start + i) := by
  cases w with
  | eight =>
    simp only [load?, bytes, Nat.mul_one]
    rw [Bytes.getElem?_part, if_pos h]
  | sixteen =>
    simp only [load?, bytes]
    rw [Bytes.getElem?_part, Bytes.getElem?_part, if_pos (by omega), if_pos (by omega),
      show start * 2 + 2 * i = 2 * (start + i) by ring,
      show start * 2 + (2 * i + 1) = 2 * (start + i) + 1 by ring]

theorem load?_pack {w : SampleWidth} {vs : List Nat} {i v : Nat} (hi : vs[i]? = some v)
    (hv : v ≤ w.max) : w.load? (w.pack vs) i = some v := by
  induction vs generalizing i with
  | nil => simp at hi
  | cons u vs ih =>
    cases i with
    | zero =>
      obtain rfl : u = v := by simpa using hi
      cases w with
      | eight =>
        simp only [max] at hv
        simp [pack, load?, encode]
        omega
      | sixteen =>
        simp only [max] at hv
        simp [pack, load?, encode]
        omega
    | succ i =>
      have hlater := ih (by simpa using hi)
      have hpart : (w.pack (u :: vs)).part (1 * w.bytes) (vs.length * w.bytes) = w.pack vs := by
        symm
        rw [Bytes.eq_part_iff (by rw [size_pack, List.length_cons]; exact le_of_eq (by ring))]
        refine ⟨size_pack w vs, fun j _ => ?_⟩
        rw [pack_cons, Array.getElem?_append_right (by simp), List.size_toArray, length_encode]
        congr 1
        omega
      have hlt : i < vs.length := by
        obtain ⟨hlt, -⟩ := List.getElem?_eq_some_iff.mp (show vs[i]? = some v by simpa using hi)
        exact hlt
      rw [← hpart, load?_part hlt, Nat.add_comm 1 i] at hlater
      exact hlater

end SampleWidth

namespace RowKernel

variable {k : RowKernel} {f g : Nat → Nat → Nat} {x n : Nat}

theorem channels_pos_of_ofFormat? {format : PixelFormat} (h : ofFormat? format = some k) :
    0 < k.channels := by
  unfold ofFormat? at h
  split at h <;> cases h
  exact format.channels_pos

theorem bytesPerPixel_of_ofFormat? {format : PixelFormat} (h : ofFormat? format = some k) :
    k.bytesPerPixel = format.bytesPerPixel := by
  unfold ofFormat? at h
  split at h
  case h_1 w hw =>
    cases h
    rw [bytesPerPixel, PixelFormat.bytesPerPixel, hw]
    rfl
  case h_2 => cases h

theorem bytesPerPixel_pos_of_ofFormat? {format : PixelFormat} (h : ofFormat? format = some k) :
    0 < k.bytesPerPixel := by
  rw [bytesPerPixel_of_ofFormat? h]
  exact format.bytesPerPixel_pos

/-- The sample of channel `c` in column `x` of a row, zero where there is none. -/
def sample (k : RowKernel) (row : Bytes) (x c : Nat) : Nat :=
  (k.width.load? row (x * k.channels + c)).getD 0

/-- The bytes of the `n` pixels from column `x` on, where channel `c` of column `x'` has the
value `f x' c`. -/
def pixels (k : RowKernel) (f : Nat → Nat → Nat) (x n : Nat) : Bytes :=
  k.width.pack ((List.range (n * k.channels)).map fun i =>
    f (x + i / k.channels) (i % k.channels))

@[simp] theorem size_pixels (k : RowKernel) (f : Nat → Nat → Nat) (x n : Nat) :
    (k.pixels f x n).size = n * k.bytesPerPixel := by
  simp [pixels, bytesPerPixel, Nat.mul_assoc]

theorem sample_of_load? {k : RowKernel} {row : Bytes} {x c v : Nat}
    (h : k.width.load? row (x * k.channels + c) = some v) : k.sample row x c = v := by
  rw [sample, h, Option.getD_some]

theorem sample_le (k : RowKernel) (row : Bytes) (x c : Nat) : k.sample row x c ≤ k.width.max := by
  unfold sample
  cases h : k.width.load? row (x * k.channels + c) with
  | none => exact Nat.zero_le _
  | some v => exact SampleWidth.load?_le h

theorem div_lt_of_lt_mul {i c n : Nat} (h : i < n * c) : i / c < n :=
  Nat.div_lt_of_lt_mul (by rwa [Nat.mul_comm])

theorem place_lt {x n c channels : Nat} (hx : x < n) (hc : c < channels) :
    x * channels + c < n * channels :=
  calc x * channels + c < x * channels + channels := by omega
    _ = (x + 1) * channels := by ring
    _ ≤ n * channels := Nat.mul_le_mul_right _ hx

theorem place_div {x c channels : Nat} (hc : c < channels) : (x * channels + c) / channels = x := by
  rw [Nat.mul_comm, Nat.mul_add_div (by omega), Nat.div_eq_of_lt hc, Nat.add_zero]

theorem place_mod {x c channels : Nat} (hc : c < channels) : (x * channels + c) % channels = c := by
  rw [Nat.mul_comm, Nat.mul_add_mod, Nat.mod_eq_of_lt hc]

theorem load?_eq_sample {row : Bytes} {c : Nat} (hrow : row.size = n * k.bytesPerPixel)
    (hx : x < n) (hc : c < k.channels) :
    k.width.load? row (x * k.channels + c) = some (k.sample row x c) := by
  have hin : (x * k.channels + c + 1) * k.width.bytes ≤ row.size := by
    rw [hrow, bytesPerPixel, ← Nat.mul_assoc]
    exact Nat.mul_le_mul_right _ (place_lt hx hc)
  obtain ⟨v, hv⟩ := Option.isSome_iff_exists.mp (SampleWidth.load?_isSome hin)
  rw [sample, hv, Option.getD_some]

/-- The samples of a run of pixels out of a row are samples of the row. -/
theorem load?_part {row : Bytes} {j c : Nat} (hj : j < n) (hc : c < k.channels) :
    k.width.load? (row.part (x * k.bytesPerPixel) (n * k.bytesPerPixel)) (j * k.channels + c) =
      k.width.load? row ((x + j) * k.channels + c) := by
  rw [bytesPerPixel, ← Nat.mul_assoc, ← Nat.mul_assoc, SampleWidth.load?_part (place_lt hj hc),
    Nat.add_mul, Nat.add_assoc]

/-- Only the samples of the run matter, not the columns they are counted from. -/
theorem pixels_congr {x' : Nat} (h : ∀ j < n, ∀ c < k.channels, f (x + j) c = g (x' + j) c) :
    k.pixels f x n = k.pixels g x' n := by
  unfold pixels
  congr 1
  refine List.map_congr_left fun i hi => ?_
  have hlt := List.mem_range.mp hi
  have hpos : 0 < k.channels := Nat.pos_of_ne_zero fun h0 => by simp [h0] at hlt
  exact h _ (div_lt_of_lt_mul hlt) _ (Nat.mod_lt _ hpos)

theorem part_pixels (hpos : 0 < k.channels) {x' n' : Nat} (h : x' + n' ≤ n) :
    (k.pixels f x n).part (x' * k.bytesPerPixel) (n' * k.bytesPerPixel) =
      k.pixels f (x + x') n' := by
  have hbytes (m : Nat) : m * k.bytesPerPixel = m * k.channels * k.width.bytes := by
    rw [bytesPerPixel, Nat.mul_assoc]
  have hsamples : x' * k.channels + n' * k.channels ≤ n * k.channels := by
    rw [← Nat.add_mul]
    exact Nat.mul_le_mul_right _ h
  have hsum : x' * k.bytesPerPixel + n' * k.bytesPerPixel =
      (x' * k.channels + n' * k.channels) * k.width.bytes := by
    rw [hbytes, hbytes, Nat.add_mul]
  have hlist (m : Nat) : (List.range m).take (x' * k.channels + n' * k.channels) =
      List.range (min (x' * k.channels + n' * k.channels) m) := List.take_range
  rw [pixels, pixels, SampleWidth.pack, SampleWidth.pack, Bytes.part, hsum, hbytes,
    List.extract_toArray, List.extract_eq_take_drop, ← List.drop_take,
    take_flatMap_of_length k.width.length_encode, drop_flatMap_of_length k.width.length_encode,
    ← List.map_take, ← List.map_drop, hlist, Nat.min_eq_left hsamples]
  congr 2
  refine List.ext_getElem (by simp) fun i hi _ => ?_
  simp only [List.getElem_map, List.getElem_drop, List.getElem_range]
  rw [Nat.add_comm (x' * k.channels) i, Nat.add_mul_div_right _ _ hpos, Nat.add_mul_mod_self_right,
    Nat.add_comm (i / k.channels), Nat.add_assoc]

/-- The samples of a run of pixels are the values it was packed from. -/
theorem load?_pixels {j c : Nat} (hj : j < n) (hc : c < k.channels)
    (hmax : f (x + j) c ≤ k.width.max) :
    k.width.load? (k.pixels f x n) (j * k.channels + c) = some (f (x + j) c) := by
  refine SampleWidth.load?_pack ?_ hmax
  rw [List.getElem?_map, List.getElem?_range (place_lt hj hc), Option.map_some, place_div hc,
    place_mod hc]

/-- A row consists of the pixels that its samples make. -/
theorem pixels_sample {row : Bytes} (hrow : row.size = n * k.bytesPerPixel) :
    k.pixels (k.sample row) 0 n = row := by
  have hbytes : n * k.bytesPerPixel = n * k.channels * k.width.bytes := by
    rw [bytesPerPixel, Nat.mul_assoc]
  refine SampleWidth.ext_load? ((size_pixels ..).trans hbytes) (hrow.trans hbytes) fun i hi => ?_
  have hx := div_lt_of_lt_mul hi
  have hc : i % k.channels < k.channels :=
    Nat.mod_lt _ (Nat.pos_of_ne_zero fun h0 => by simp [h0] at hi)
  have hplace : i / k.channels * k.channels + i % k.channels = i := Nat.div_add_mod' ..
  rw [← hplace, load?_pixels hx hc (k.sample_le ..), Nat.zero_add, load?_eq_sample hrow hx hc]

end RowKernel

end Resampler

import Mathlib.Tactic.Ring
import Resampler.Pixel.Sample

/-!
Rows of bytes inside a buffer.

A source writes rows into a buffer that belongs to the caller. What can be said
about such a buffer is said here once: what a part of it holds, what a row
written into it changes, and what `Laid` says of several rows written one below
the other, namely where they stand and that nothing else was touched.
-/

namespace Resampler.Bytes

/-- The `len` bytes from position `start`, or as many of them as there are. -/
def part (b : Bytes) (start len : Nat) : Bytes := b.extract start (start + len)

theorem size_part {b : Bytes} {start len : Nat} (h : start + len ≤ b.size) :
    (b.part start len).size = len := by
  simp only [part, Array.size_extract]
  omega

theorem getElem?_part (b : Bytes) (start len i : Nat) :
    (b.part start len)[i]? = if i < len then b[start + i]? else none := by
  rw [part, Array.getElem?_extract]
  by_cases hi : i < len
  · rw [if_pos hi]
    by_cases hb : start + i < b.size
    · rw [if_pos (by omega)]
    · rw [if_neg (by omega), Array.getElem?_eq_none (by omega)]
  · rw [if_neg hi, if_neg (by omega)]

theorem part_part {b : Bytes} {start len start' len' : Nat} (h : start' + len' ≤ len) :
    (b.part start len).part start' len' = b.part (start + start') len' := by
  refine Array.ext_getElem? fun i => ?_
  simp only [getElem?_part]
  by_cases hi : i < len'
  · rw [if_pos hi, if_pos hi, if_pos (by omega), Nat.add_assoc]
  · rw [if_neg hi, if_neg hi]

theorem part_of_size_eq {b : Bytes} {len : Nat} (h : b.size = len) : b.part 0 len = b := by
  subst h
  simp [part]

theorem slice?_eq_some_iff {b r : Bytes} {start len : Nat} :
    b.slice? start len = some r ↔ start + len ≤ b.size ∧ r = b.part start len := by
  unfold slice? part
  split <;> simp_all [eq_comm]

theorem slice?_of_le {b : Bytes} {start len : Nat} (h : start + len ≤ b.size) :
    b.slice? start len = some (b.part start len) :=
  slice?_eq_some_iff.mpr ⟨h, rfl⟩

theorem eq_part_iff {b r : Bytes} {start len : Nat} (h : start + len ≤ b.size) :
    r = b.part start len ↔ r.size = len ∧ ∀ i < len, r[i]? = b[start + i]? := by
  constructor
  · rintro rfl
    refine ⟨size_part h, fun i hi => ?_⟩
    rw [getElem?_part, if_pos hi]
  · rintro ⟨hsize, hr⟩
    refine Array.ext_getElem? fun i => ?_
    rw [getElem?_part]
    by_cases hi : i < len
    · rw [if_pos hi, hr i hi]
    · rw [if_neg hi, Array.getElem?_eq_none (by omega)]

/-! A row written into a buffer. -/

theorem blit?_isSome_iff {b row : Bytes} {start : Nat} :
    (b.blit? start row).isSome ↔ start + row.size ≤ b.size := by
  unfold blit?
  split <;> simp_all

theorem getElem?_of_blit? {b row r : Bytes} {start : Nat} (h : b.blit? start row = some r)
    (i : Nat) :
    r[i]? = if start ≤ i ∧ i < start + row.size then row[i - start]? else b[i]? := by
  unfold blit? at h
  split at h
  case isFalse => cases h
  case isTrue hfit =>
    cases h
    have hbefore : (b.extract 0 start).size = start := by
      simp only [Array.size_extract]
      omega
    rw [Array.append_assoc, Array.getElem?_append, hbefore]
    by_cases hlo : i < start
    · rw [if_pos hlo, if_neg (by omega), Array.getElem?_extract, if_pos (by omega), Nat.zero_add]
    · rw [if_neg hlo, Array.getElem?_append]
      by_cases hhi : i < start + row.size
      · rw [if_pos (by omega), if_pos (by omega)]
      · rw [if_neg (by omega), if_neg (by omega), Array.getElem?_extract]
        by_cases hb : i < b.size
        · rw [if_pos (by omega)]
          congr 1
          omega
        · rw [if_neg (by omega), Array.getElem?_eq_none (by omega)]

/-- What was written stands where it was written. -/
theorem part_of_blit?_inside {b row r : Bytes} {start i len : Nat}
    (h : b.blit? start row = some r) (hin : i + len ≤ row.size) :
    r.part (start + i) len = row.part i len := by
  refine Array.ext_getElem? fun j => ?_
  rw [getElem?_part, getElem?_part]
  by_cases hj : j < len
  · rw [if_pos hj, if_pos hj, getElem?_of_blit? h, if_pos (by omega)]
    congr 1
    omega
  · rw [if_neg hj, if_neg hj]

theorem part_of_blit? {b row r : Bytes} {start : Nat} (h : b.blit? start row = some r) :
    r.part start row.size = row :=
  (part_of_blit?_inside (i := 0) h (by omega)).trans (part_of_size_eq rfl)

/-- What lies beside what was written is as it was. -/
theorem part_of_blit?_outside {b row r : Bytes} {start i len : Nat}
    (h : b.blit? start row = some r) (hout : i + len ≤ start ∨ start + row.size ≤ i) :
    r.part i len = b.part i len := by
  refine Array.ext_getElem? fun j => ?_
  rw [getElem?_part, getElem?_part]
  by_cases hj : j < len
  · rw [if_pos hj, if_pos hj, getElem?_of_blit? h, if_neg (by omega)]
  · rw [if_neg hj, if_neg hj]

/-- Two runs written one after the other are one run. -/
theorem blit?_blit? (b x y : Bytes) (start : Nat) :
    ((b.blit? start x).bind fun b' => b'.blit? (start + x.size) y) = b.blit? start (x ++ y) := by
  cases hx : b.blit? start x with
  | none =>
    have hlong : ¬start + x.size ≤ b.size := by
      rw [← blit?_isSome_iff, hx]
      simp
    rw [Option.bind_none, blit?, if_neg (by simp only [Array.size_append]; omega)]
  | some b' =>
    rw [Option.bind_some]
    have hsize : b'.size = b.size := size_of_blit? hx
    cases hy : b'.blit? (start + x.size) y with
    | none =>
      have hlong : ¬start + x.size + y.size ≤ b'.size := by
        rw [← blit?_isSome_iff, hy]
        simp
      rw [blit?, if_neg (by simp only [Array.size_append]; omega)]
    | some b'' =>
      have hfit : start + x.size + y.size ≤ b'.size := blit?_isSome_iff.mp (by simp [hy])
      obtain ⟨z, hz⟩ := Option.isSome_iff_exists.mp
        (blit?_isSome_iff.mpr (show start + (x ++ y).size ≤ b.size by
          simp only [Array.size_append]; omega))
      rw [hz, Option.some.injEq]
      -- all three runs fit, and a byte lies before, in the first, in the second, or after
      refine Array.ext_getElem? fun i => ?_
      rw [getElem?_of_blit? hy, getElem?_of_blit? hx, getElem?_of_blit? hz, Array.size_append,
        Array.getElem?_append]
      by_cases hlo : i < start
      · rw [if_neg (by omega), if_neg (by omega), if_neg (by omega)]
      · by_cases hmid : i < start + x.size
        · rw [if_neg (by omega), if_pos (by omega), if_pos (by omega), if_pos (by omega)]
        · by_cases hhi : i < start + (x.size + y.size)
          · rw [if_pos (by omega), if_pos (by omega), if_neg (by omega)]
            congr 1
            omega
          · rw [if_neg (by omega), if_neg (by omega), if_neg (by omega)]

theorem blit?_zero {b row : Bytes} (h : row.size = b.size) : b.blit? 0 row = some row := by
  simp [blit?, h]

/-! Rows without padding. -/

/-- Bytes that consist of rows are known by their rows. -/
theorem eq_of_parts {a b : Bytes} {len n : Nat} (ha : a.size = n * len) (hb : b.size = n * len)
    (h : ∀ r < n, a.part (r * len) len = b.part (r * len) len) : a = b := by
  refine Array.ext (ha.trans hb.symm) fun i hi hi' => ?_
  rw [ha] at hi
  have hlen : 0 < len := Nat.pos_of_ne_zero fun h0 => by simp [h0] at hi
  have hmod := Nat.mod_lt i hlen
  have hplace : i / len * len + i % len = i := Nat.div_add_mod' i len
  have hbyte := congrArg (fun row : Bytes => row[i % len]?)
    (h (i / len) (Nat.div_lt_of_lt_mul (by rwa [Nat.mul_comm])))
  simp only [getElem?_part, if_pos hmod, hplace] at hbyte
  rwa [Array.getElem?_eq_getElem, Array.getElem?_eq_getElem, Option.some.injEq] at hbyte

/-- The rows of the given numbers, one right after the other. -/
def stack (rows : Nat → Bytes) : List Nat → Bytes
  | [] => #[]
  | y :: ys => rows y ++ stack rows ys

section Stack

variable {rows : Nat → Bytes} {len : Nat}

theorem stack_append (xs ys : List Nat) :
    stack rows (xs ++ ys) = stack rows xs ++ stack rows ys := by
  induction xs with
  | nil => simp [stack]
  | cons x xs ih => rw [List.cons_append, stack, stack, ih, Array.append_assoc]

theorem foldl_stack {β : Type} (f : β → List Nat) (xs : List β) (b : Bytes) :
    (xs.map fun x => stack rows (f x)).foldl (· ++ ·) b = b ++ stack rows (xs.flatMap f) := by
  induction xs generalizing b with
  | nil => simp [stack]
  | cons x xs ih =>
    rw [List.map_cons, List.foldl_cons, ih, List.flatMap_cons, stack_append, Array.append_assoc]

theorem size_stack {ys : List Nat} (h : ∀ y ∈ ys, (rows y).size = len) :
    (stack rows ys).size = ys.length * len := by
  induction ys with
  | nil => simp [stack]
  | cons y ys ih =>
    rw [stack, Array.size_append, h y List.mem_cons_self,
      ih fun z hz => h z (List.mem_cons_of_mem y hz), List.length_cons]
    ring

theorem part_stack {ys : List Nat} (h : ∀ y ∈ ys, (rows y).size = len) {r : Nat}
    (hr : r < ys.length) : (stack rows ys).part (r * len) len = rows ys[r] := by
  -- the rows before this one are as long as its place says, so that it starts there
  have hsplit : ys = ys.take r ++ ys[r] :: ys.drop (r + 1) := by simp
  have hbefore : (stack rows (ys.take r)).size = r * len := by
    rw [size_stack fun y hy => h y (List.mem_of_mem_take hy), List.length_take,
      Nat.min_eq_left (Nat.le_of_lt hr)]
  have hrow : (rows ys[r]).size = len := h _ (List.getElem_mem hr)
  have hstack : stack rows ys =
      stack rows (ys.take r) ++ (rows ys[r] ++ stack rows (ys.drop (r + 1))) := by
    conv_lhs => rw [hsplit, stack_append, stack]
  refine Array.ext_getElem? fun i => ?_
  rw [hstack, getElem?_part]
  by_cases hi : i < len
  · rw [if_pos hi, Array.getElem?_append_right (by omega), Array.getElem?_append_left (by omega)]
    congr 1
    omega
  · rw [if_neg hi, Array.getElem?_eq_none (by omega)]

/-- Rows written to their place in an image stand there, and rows that stood there still do. -/
theorem exists_blit?_stack (rows : Nat → Bytes) {height y n : Nat} {b : Bytes}
    (hlen : ∀ z < height, (rows z).size = len) (hyn : y + n ≤ height)
    (hsize : b.size = height * len) :
    ∃ r, b.blit? (y * len) (stack rows (List.range' y n)) = some r ∧ r.size = height * len ∧
      ∀ z < height, (y ≤ z ∧ z < y + n) ∨ b.part (z * len) len = rows z →
        r.part (z * len) len = rows z := by
  have hlen' : ∀ z ∈ List.range' y n, (rows z).size = len := by
    intro z hz
    exact hlen z (Nat.lt_of_lt_of_le (List.mem_range'_1.mp hz).2 hyn)
  have hstack : (stack rows (List.range' y n)).size = n * len := by
    rw [size_stack hlen', List.length_range']
  have hroom : y * len + n * len ≤ height * len := by
    rw [← Nat.add_mul]
    exact Nat.mul_le_mul_right _ hyn
  obtain ⟨r, hr⟩ := Option.isSome_iff_exists.mp (blit?_isSome_iff.mpr
    (show y * len + (stack rows (List.range' y n)).size ≤ b.size by rwa [hstack, hsize]))
  refine ⟨r, hr, (size_of_blit? hr).trans hsize, fun z hz hrow => ?_⟩
  by_cases hin : y ≤ z ∧ z < y + n
  · obtain ⟨i, rfl⟩ := Nat.exists_eq_add_of_le hin.1
    have hi : i < (List.range' y n).length := by
      rw [List.length_range']
      omega
    have hfit : i * len + len ≤ (stack rows (List.range' y n)).size := by
      rw [hstack, ← Nat.succ_mul]
      exact Nat.mul_le_mul_right _ (by omega)
    rw [Nat.add_mul, part_of_blit?_inside hr hfit, part_stack hlen' hi, List.getElem_range',
      Nat.one_mul]
  · rw [part_of_blit?_outside hr, hrow.resolve_left hin]
    rw [hstack]
    rcases Nat.lt_or_ge z y with hlt | hge
    · left
      rw [← Nat.succ_mul]
      exact Nat.mul_le_mul_right _ hlt
    · right
      rw [← Nat.add_mul]
      exact Nat.mul_le_mul_right _ (by omega)

end Stack

/-! Rows laid out one below the other. -/

/-- `after` is `before` with the rows from `first` up to `last` in it. Each is `len` bytes long
and row `r` starts at byte `r * stride`; no other byte is changed. -/
structure Laid (rows : Nat → Bytes) (stride len first last : Nat) (before after : Bytes) :
    Prop where
  size_eq : after.size = before.size
  row : ∀ r, first ≤ r → r < last → after.slice? (r * stride) len = some (rows r)
  rest : ∀ i, (∀ r, first ≤ r → r < last → i < r * stride ∨ r * stride + len ≤ i) →
    after[i]? = before[i]?

namespace Laid

variable {rows rows' : Nat → Bytes} {stride len first last : Nat} {before after : Bytes}

theorem none (rows : Nat → Bytes) (stride len first : Nat) (b : Bytes) :
    Laid rows stride len first first b b where
  size_eq := rfl
  row r hlo hhi := by omega
  rest _ _ := rfl

theorem cons {between : Bytes} (hwrite : before.blit? (first * stride) (rows first) = some between)
    (hlen : (rows first).size = len) (hstride : len ≤ stride) (hlast : first < last)
    (h : Laid rows stride len (first + 1) last between after) :
    Laid rows stride len first last before after where
  size_eq := h.size_eq.trans (size_of_blit? hwrite)
  row r hlo hhi := by
    rcases Nat.eq_or_lt_of_le hlo with rfl | hlt
    · have hfit : first * stride + len ≤ between.size := by
        have := blit?_isSome_iff.mp (Option.isSome_of_mem hwrite)
        rw [size_of_blit? hwrite]
        omega
      have hrow := part_of_blit? hwrite
      rw [slice?_eq_some_iff, h.size_eq, ← hrow, hlen]
      refine ⟨hfit, (eq_part_iff (by rw [h.size_eq]; exact hfit)).mpr ⟨size_part hfit, ?_⟩⟩
      intro i hi
      -- later rows start after the end of this one
      rw [getElem?_part, if_pos hi, h.rest]
      intro r' hlo' _
      left
      calc first * stride + i < first * stride + stride := by omega
        _ = (first + 1) * stride := by ring
        _ ≤ r' * stride := Nat.mul_le_mul_right _ hlo'
    · exact h.row r hlt hhi
  rest i hi := by
    rw [h.rest i fun r hlo hhi => hi r (by omega) hhi, getElem?_of_blit? hwrite, if_neg]
    have := hi first le_rfl hlast
    omega

theorem getElem?_row (h : Laid rows stride len first last before after) {r i : Nat}
    (hlo : first ≤ r) (hhi : r < last) (hleft : r * stride ≤ i) (hright : i < r * stride + len) :
    after[i]? = (rows r)[i - r * stride]? := by
  obtain ⟨-, hrow⟩ := slice?_eq_some_iff.mp (h.row r hlo hhi)
  rw [hrow, getElem?_part, if_pos (by omega), Nat.add_sub_cancel' hleft]

/-- The same rows laid out over the same bytes make the same bytes. -/
theorem unique {after' : Bytes} (h : Laid rows stride len first last before after)
    (h' : Laid rows' stride len first last before after')
    (hrows : ∀ r, first ≤ r → r < last → rows r = rows' r) : after = after' := by
  refine Array.ext_getElem? fun i => ?_
  -- a byte lies in one of the rows or beside all of them
  by_cases hin : ∃ r, first ≤ r ∧ r < last ∧ r * stride ≤ i ∧ i < r * stride + len
  · obtain ⟨r, hlo, hhi, hleft, hright⟩ := hin
    rw [h.getElem?_row hlo hhi hleft hright, h'.getElem?_row hlo hhi hleft hright, hrows r hlo hhi]
  · have hout (r : Nat) (hlo : first ≤ r) (hhi : r < last) :
        i < r * stride ∨ r * stride + len ≤ i := by
      by_contra hno
      exact hin ⟨r, hlo, hhi, by omega, by omega⟩
    rw [h.rest i hout, h'.rest i hout]

/-- Rows laid out without padding, as many as the buffer has room for, are all that it holds. -/
theorem eq_stack {y n : Nat} (h : Laid rows len len 0 n before after)
    (hsize : before.size = n * len) (hrows : ∀ r < n, rows r = rows' (y + r))
    (hlen : ∀ r < n, (rows r).size = len) :
    after = stack rows' (List.range' y n) := by
  have hlen' : ∀ z ∈ List.range' y n, (rows' z).size = len := by
    intro z hz
    obtain ⟨hlo, hhi⟩ := List.mem_range'_1.mp hz
    obtain ⟨r, rfl⟩ := Nat.exists_eq_add_of_le hlo
    rw [← hrows r (by omega), hlen r (by omega)]
  refine eq_of_parts (h.size_eq.trans hsize) (by rw [size_stack hlen', List.length_range'])
    fun r hr => ?_
  obtain ⟨-, hrow⟩ := slice?_eq_some_iff.mp (h.row r (Nat.zero_le r) hr)
  rw [part_stack hlen' (by rwa [List.length_range']), ← hrow, hrows r hr, List.getElem_range',
    Nat.one_mul]

end Laid

end Resampler.Bytes

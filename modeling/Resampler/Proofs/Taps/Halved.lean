import Resampler.Proofs.Real
import Resampler.Proofs.Taps.Replicated
import Resampler.Taps.Blur

/-!
A kernel in one half.

A kernel that covers the axis is not laid out. What is kept of it are its taps by distance, with all
that lie farther than the axis is long in one last entry, and the sums of these from each distance
on. Laid out in full, with the end samples repeated, it would give every sample the taps that have
this sample as their nearest. In exact arithmetic the two agree (`folded_replicates`).

Both are told from `tap`, the share of the tap at a distance, and `tail`, that of the taps on one
side from a distance on: a sample between the ends receives a tap, one at an end receives a tail.
-/

namespace Resampler.DiscreteKernel

open LooseTaps Exact

/-- The weights of the window of output sample `i` over a kernel that covers the axis, before they
become words. -/
def folded {α : Type} [Scalar α] (bell : Nat → α) (reach size i : Nat) : List α :=
  let half := half bell reach size
  onAxis half (suffixSums half.toList).toArray size i

/-- The tables of wide kernels are made of these. -/
theorem wideWeights_eq {α : Type} [Analytic α] (g : Gaussian α) {size : Nat} (hsize : size ≠ 1) :
    LooseTable.wideWeights g size =
      (List.range size).map fun i => FixedPoint.quantize (folded g.tap g.reach size i) :=
  if_neg hsize

/-- The sum over both sides. -/
noncomputable def total (bell : ℕ → ℝ) (reach : ℕ) : ℝ :=
  bell 0 + 2 * ∑ d ∈ Finset.Ico 1 (reach + 1), bell d

/-- The share of a tap at distance `d`. -/
noncomputable def tap (bell : ℕ → ℝ) (reach d : ℕ) : ℝ :=
  if d ≤ reach then bell d / total bell reach else 0

/-- The share of the taps on one side from distance `d` on. -/
noncomputable def tail (bell : ℕ → ℝ) (reach d : ℕ) : ℝ :=
  ∑ k ∈ Finset.Ico d (reach + 1), tap bell reach k

/-! ### The two sides of a kernel -/

section

variable (f : ℕ → ℝ) (reach d : ℕ)

/-- A sum over the taps to the right of the middle one from a distance on. -/
theorem sum_right : (∑ j ∈ Finset.range (2 * reach + 1),
    if reach + d ≤ j then f ((j : ℤ) - reach).natAbs else 0) =
      ∑ k ∈ Finset.Ico d (reach + 1), f k := by
  rw [← Finset.sum_filter]
  refine Finset.sum_nbij' (fun j => j - reach) (fun k => reach + k) ?_ ?_ ?_ ?_ ?_
  all_goals simp only [Finset.mem_filter, Finset.mem_range, Finset.mem_Ico]
  · omega
  · omega
  · omega
  · omega
  · intro j hj
    congr 1
    omega

/-- A sum over the taps to the left of the middle one from a distance on. -/
theorem sum_left : (∑ j ∈ Finset.range (2 * reach + 1),
    if j + d ≤ reach then f ((j : ℤ) - reach).natAbs else 0) =
      ∑ k ∈ Finset.Ico d (reach + 1), f k := by
  rw [← Finset.sum_filter]
  refine Finset.sum_nbij' (fun j => reach - j) (fun k => reach - k) ?_ ?_ ?_ ?_ ?_
  all_goals simp only [Finset.mem_filter, Finset.mem_range, Finset.mem_Ico]
  · omega
  · omega
  · omega
  · omega
  · intro j hj
    congr 1
    omega

/-- A sum over all taps, the middle one counted once. -/
theorem sum_both : (∑ j ∈ Finset.range (2 * reach + 1), f ((j : ℤ) - reach).natAbs) =
    f 0 + 2 * ∑ k ∈ Finset.Ico 1 (reach + 1), f k := by
  have hsides : ∀ j ∈ Finset.range (2 * reach + 1), f ((j : ℤ) - reach).natAbs =
      (if j + 1 ≤ reach then f ((j : ℤ) - reach).natAbs else 0) +
        if reach + 0 ≤ j then f ((j : ℤ) - reach).natAbs else 0 := by
    intro j _
    by_cases hj : j + 1 ≤ reach
    · rw [if_pos hj, if_neg (by omega), add_zero]
    · rw [if_neg hj, if_pos (by omega), zero_add]
  rw [Finset.sum_congr rfl hsides, Finset.sum_add_distrib, sum_left, sum_right,
    Finset.sum_eq_sum_Ico_succ_bot (Nat.succ_pos reach)]
  ring

end

/-! ### The kernel in full -/

section

variable (bell : ℕ → ℝ) (reach : ℕ)

theorem full_eq : full bell reach =
    (List.range (2 * reach + 1)).map fun j : ℕ => tap bell reach ((j : ℤ) - reach).natAbs := by
  have hsum : Scalar.sum ((List.range (2 * reach + 1)).map fun j : ℕ =>
      bell ((j : ℤ) - reach).natAbs) = total bell reach := by
    rw [sum_real]
    exact sum_both bell reach
  unfold full
  simp only [hsum, List.map_map]
  refine List.map_congr_left fun j hj => ?_
  have hlt := List.mem_range.mp hj
  rw [tap, if_pos (by omega), Function.comp_apply]

theorem getD_full (j : ℕ) : (full bell reach).getD j 0 =
    if j < 2 * reach + 1 then tap bell reach ((j : ℤ) - reach).natAbs else 0 := by
  rw [full_eq, List.getD_eq_getElem?_getD, List.getElem?_map]
  split
  · rw [List.getElem?_range ‹_›]
    rfl
  · rw [List.getElem?_eq_none (by rw [List.length_range]; omega)]
    rfl

/-- The tap at distance `d` stands `d` places after the middle one. -/
theorem getD_full_add (d : ℕ) : (full bell reach).getD (reach + d) 0 = tap bell reach d := by
  rw [getD_full]
  by_cases hd : d ≤ reach
  · rw [if_pos (by omega)]
    congr 1
    omega
  · rw [if_neg (by omega), tap, if_neg hd]

theorem total_pos (hbell : ∀ d, 0 < bell d) : 0 < total bell reach := by
  have hside : 0 ≤ ∑ d ∈ Finset.Ico 1 (reach + 1), bell d :=
    Finset.sum_nonneg fun d _ => (hbell d).le
  have hmiddle := hbell 0
  unfold total
  linarith

/-- The shares of all taps make up the whole. -/
theorem sum_full (hbell : ∀ d, 0 < bell d) :
    ∑ j ∈ Finset.range (2 * reach + 1), (full bell reach).getD j 0 = 1 := by
  have htap : ∀ d ∈ Finset.Ico 1 (reach + 1), tap bell reach d = bell d / total bell reach :=
    fun d hd => if_pos (by have := Finset.mem_Ico.mp hd; omega)
  have hshare : ∀ j ∈ Finset.range (2 * reach + 1), (full bell reach).getD j 0 =
      tap bell reach ((j : ℤ) - reach).natAbs :=
    fun j hj => by rw [getD_full, if_pos (Finset.mem_range.mp hj)]
  rw [Finset.sum_congr rfl hshare, sum_both, Finset.sum_congr rfl htap, ← Finset.sum_div, tap,
    if_pos (Nat.zero_le _), ← mul_div_assoc, ← add_div]
  exact div_self (total_pos bell reach hbell).ne'

end

/-! ### The kernel in one half -/

section Gathered

variable {α : Type} [Scalar α]

/-- What the sampling of one half up to distance `n` gathers at place `k`. -/
def gathered (bell : ℕ → α) (len n k : ℕ) : α :=
  (((List.range' 1 n).filter fun d => min d len = k).map bell).foldl (· + ·)
    (if k = 0 then bell 0 else 0.0)

/-- The sum over both sides up to distance `n`. -/
def doubled (bell : ℕ → α) (n : ℕ) : α :=
  ((List.range' 1 n).map fun d => 2.0 * bell d).foldl (· + ·) (bell 0)

/-- A half holds at each place what there is for it up to distance `n`. -/
structure Collects (bell : ℕ → α) (len n : ℕ) (g : Gathered α) : Prop where
  total_eq : g.total = doubled bell n
  size_eq : g.half.size = len + 1
  getElem?_eq : ∀ k ≤ len, g.half[k]? = some (gathered bell len n k)

variable {bell : ℕ → α} {len n : ℕ}

theorem Collects.add {g : Gathered α} (h : Collects bell len n g) :
    Collects bell len (n + 1) (g.add bell len (n + 1)) where
  total_eq := by
    simp only [Gathered.add, h.total_eq, doubled, List.range'_1_concat, List.map_append,
      List.foldl_append, List.map_cons, List.map_nil, List.foldl_cons, List.foldl_nil,
      Nat.add_comm 1 n]
  size_eq := by simp [Gathered.add, h.size_eq]
  getElem?_eq k hk := by
    have hgot := h.getElem?_eq k hk
    simp only [Gathered.add, Array.getElem?_modify, hgot, gathered, List.range'_1_concat,
      List.filter_append, List.map_append, List.foldl_append, Nat.add_comm 1 n]
    by_cases hplace : min (n + 1) len = k
    · simp [hplace]
    · simp [hplace]

theorem collects_foldl (n : ℕ) : Collects bell len n ((List.range' 1 n).foldl (Gathered.add bell len)
    ⟨bell 0, (Array.replicate (len + 1) (0.0 : α)).setIfInBounds 0 (bell 0)⟩) := by
  induction n with
  | zero =>
    refine ⟨rfl, by simp, fun k hk => ?_⟩
    rcases Nat.eq_zero_or_pos k with rfl | hpos
    · simp [gathered]
    · simp [gathered, hpos.ne', hpos.ne, Nat.lt_succ_of_le hk]
  | succ n ih =>
    rw [List.range'_1_concat, List.foldl_append, Nat.add_comm 1 n]
    exact ih.add

theorem size_half (bell : ℕ → α) (reach len : ℕ) : (half bell reach len).size = len + 1 := by
  have h : Collects bell len reach _ := collects_foldl reach
  simp [half, h.size_eq]

theorem toList_half (bell : ℕ → α) (reach len : ℕ) : (half bell reach len).toList =
    ((List.range (len + 1)).map (gathered bell len reach)).map (· / doubled bell reach) := by
  have h : Collects bell len reach _ := collects_foldl reach
  have hsize := size_half bell reach len
  refine List.ext_getElem? fun k => ?_
  rcases Nat.lt_or_ge k (len + 1) with hk | hk
  · simp only [half, Array.getElem?_toList, Array.getElem?_map, h.total_eq, List.getElem?_map,
      h.getElem?_eq k (Nat.le_of_lt_succ hk), List.getElem?_range hk]
    rfl
  · rw [List.getElem?_eq_none (by simpa [hsize] using hk), List.getElem?_eq_none (by simpa using hk)]

end Gathered

section

variable (bell : ℕ → ℝ) (reach len : ℕ)

theorem doubled_eq_total (n : ℕ) : doubled bell n = total bell n := by
  have htwo : (2.0 : ℝ) = 2 := by norm_num
  induction n with
  | zero => simp [doubled, total]
  | succ n ih =>
    rw [total, Finset.sum_Ico_succ_top (by omega)]
    rw [total] at ih
    simp only [doubled, List.range'_1_concat, List.map_append, List.foldl_append] at ih ⊢
    rw [ih]
    simp only [List.map_cons, List.map_nil, List.foldl_cons, List.foldl_nil, htwo, Nat.add_comm 1 n]
    ring

theorem gathered_eq_sum (n k : ℕ) : gathered bell len n k =
    ∑ d ∈ Finset.range (n + 1), if min d len = k then bell d else 0 := by
  have hzero : (0.0 : ℝ) = 0 := by norm_num
  induction n with
  | zero => simp [gathered, hzero, eq_comm]
  | succ n ih =>
    rw [Finset.sum_range_succ, ← ih]
    simp only [gathered, List.range'_1_concat, List.filter_append, List.map_append,
      List.foldl_append, Nat.add_comm 1 n]
    by_cases hplace : min (n + 1) len = k
    · simp [hplace]
    · simp [hplace]

theorem getD_half {k : ℕ} (hk : k ≤ len) : (half bell reach len).getD k 0 =
    ∑ d ∈ Finset.range (reach + 1), if min d len = k then tap bell reach d else 0 := by
  have htap : ∀ d ∈ Finset.range (reach + 1), (if min d len = k then tap bell reach d else 0) =
      (if min d len = k then bell d else 0) / total bell reach := by
    intro d hd
    rw [tap, if_pos (Nat.le_of_lt_succ (Finset.mem_range.mp hd)), ite_div, zero_div]
  rw [Finset.sum_congr rfl htap, ← Finset.sum_div, ← gathered_eq_sum, ← doubled_eq_total,
    Array.getD_eq_getD_getElem?, ← Array.getElem?_toList, toList_half, List.getElem?_map,
    List.getElem?_map, List.getElem?_range (Nat.lt_succ_of_le hk)]
  rfl

theorem getD_half_of_lt {d : ℕ} (hd : d < len) :
    (half bell reach len).getD d 0 = tap bell reach d := by
  have hown : ∀ k ∈ Finset.range (reach + 1),
      (if min k len = d then tap bell reach k else 0) = if k = d then tap bell reach k else 0 :=
    fun k _ => if_congr (by omega) rfl rfl
  rw [getD_half bell reach len hd.le, Finset.sum_congr rfl hown, Finset.sum_ite_eq']
  split
  · rfl
  · rw [tap, if_neg fun hle => ‹d ∉ _› (Finset.mem_range.mpr (Nat.lt_succ_of_le hle))]

theorem getD_half_last : (half bell reach len).getD len 0 = tail bell reach len := by
  rw [getD_half bell reach len le_rfl, ← Finset.sum_filter, tail]
  refine Finset.sum_congr (Finset.ext fun d => ?_) fun _ _ => rfl
  simp only [Finset.mem_filter, Finset.mem_range, Finset.mem_Ico]
  omega

theorem tail_eq_add (d : ℕ) : tail bell reach d = tap bell reach d + tail bell reach (d + 1) := by
  unfold tail
  rcases Nat.lt_or_ge reach d with h | h
  · rw [Finset.Ico_eq_empty_of_le (by omega), Finset.Ico_eq_empty_of_le (by omega), tap,
      if_neg (by omega), Finset.sum_empty, add_zero]
  · exact Finset.sum_eq_sum_Ico_succ_bot (by omega) _

theorem getD_suffixSums (xs : List ℝ) (n : ℕ) : (suffixSums xs).getD n 0 = (xs.drop n).sum := by
  induction xs generalizing n with
  | nil => simp [suffixSums]
  | cons x xs ih =>
    have hhead : (suffixSums xs).getD 0 0 = xs.sum := ih 0
    cases n with
    | zero =>
      rw [List.drop_zero, List.sum_cons, ← hhead, suffixSums]
      split <;> simp [*]
    | succ n =>
      rw [List.drop_succ_cons, ← ih n, suffixSums]
      split <;> simp [*]

/-- The sums of the entries of one half, the last one among them, are tails. -/
theorem sum_drop_half {d : ℕ} (hd : d ≤ len) :
    ((half bell reach len).toList.drop d).sum = tail bell reach d := by
  have hsize := size_half bell reach len
  induction hd using Nat.decreasingInduction with
  | self =>
    rw [List.drop_eq_getElem_cons (by simp [hsize]), List.drop_of_length_le (by simp [hsize]),
      List.sum_singleton, ← getD_half_last, Array.getElem_toList, Array.getElem_eq_getD 0]
  | of_succ d hd ih =>
    rw [List.drop_eq_getElem_cons (by simp [hsize]; omega), List.sum_cons, ih,
      tail_eq_add bell reach d, ← getD_half_of_lt bell reach len hd, Array.getElem_toList,
      Array.getElem_eq_getD 0]

end

/-! ### What each sample receives -/

/-- The share that sample `s` receives from the kernel in full around sample `i`, when the end
samples are repeated. -/
noncomputable def received (bell : ℕ → ℝ) (reach size i s : ℕ) : ℝ :=
  ∑ j ∈ Finset.range (2 * reach + 1),
    if nearestSample size ((i : ℤ) - reach + j) = s then (full bell reach).getD j 0 else 0

section

variable (bell : ℕ → ℝ) (reach : ℕ) {size i s : ℕ}

theorem received_eq : received bell reach size i s = ∑ j ∈ Finset.range (2 * reach + 1),
    if nearestSample size ((i : ℤ) - reach + j) = s
      then tap bell reach ((j : ℤ) - reach).natAbs else 0 := by
  refine Finset.sum_congr rfl fun j hj => ?_
  rw [getD_full, if_pos (Finset.mem_range.mp hj)]

theorem received_last (hsize : 2 ≤ size) (hi : i < size) :
    received bell reach size i (size - 1) = tail bell reach (size - 1 - i) := by
  rw [received_eq, tail, ← sum_right]
  refine Finset.sum_congr rfl fun j _ => if_congr ?_ rfl rfl
  unfold nearestSample
  omega

theorem received_first (hsize : 2 ≤ size) :
    received bell reach size i 0 = tail bell reach i := by
  rw [received_eq, tail, ← sum_left]
  refine Finset.sum_congr rfl fun j _ => if_congr ?_ rfl rfl
  unfold nearestSample
  omega

theorem received_between (hpos : 0 < s) (hs : s + 1 < size) :
    received bell reach size i s = tap bell reach ((s : ℤ) - i).natAbs := by
  have hown : ∀ j ∈ Finset.range (2 * reach + 1),
      (nearestSample size ((i : ℤ) - reach + j) = s) = ((j : ℤ) = reach + s - i) := by
    intro j _
    unfold nearestSample
    apply propext
    omega
  rw [received_eq, Finset.sum_congr rfl fun j hj => by rw [if_congr (hown j hj).to_iff rfl rfl]]
  by_cases hreach : ((s : ℤ) - i).natAbs ≤ reach
  · rw [Finset.sum_eq_single_of_mem (reach + s - i) (Finset.mem_range.mpr (by omega)),
      if_pos (by omega)]
    · congr 1
      omega
    · intro j _ hne
      exact if_neg (by omega)
  · rw [tap, if_neg hreach]
    exact Finset.sum_eq_zero fun j hj => if_neg (by have := Finset.mem_range.mp hj; omega)

/-- Every tap has a nearest sample on the axis. -/
theorem sum_received (hbell : ∀ d, 0 < bell d) (hsize : 0 < size) :
    ∑ s ∈ Finset.range size, received bell reach size i s = 1 := by
  unfold received
  rw [Finset.sum_comm, ← sum_full bell reach hbell]
  refine Finset.sum_congr rfl fun j _ => ?_
  have hnearest : 0 ≤ nearestSample size ((i : ℤ) - reach + j) ∧
      nearestSample size ((i : ℤ) - reach + j) < size := by
    unfold nearestSample
    omega
  rw [Finset.sum_eq_single_of_mem (nearestSample size ((i : ℤ) - reach + j)).toNat
    (Finset.mem_range.mpr (by omega)), if_pos (by omega)]
  intro s _ hne
  exact if_neg (by omega)

theorem folded_eq (hsize : 2 ≤ size) (hi : i < size) :
    folded bell reach size i = (List.range size).map (received bell reach size i) := by
  have hzero : (0.0 : ℝ) = 0 := by norm_num
  have htail : ∀ d ≤ size, (suffixSums (half bell reach size).toList).toArray.getD d 0 =
      tail bell reach d := by
    intro d hd
    rw [Array.getD_eq_getD_getElem?, List.getElem?_toArray, ← List.getD_eq_getElem?_getD,
      getD_suffixSums, sum_drop_half bell reach size hd]
  unfold folded onAxis
  refine List.map_congr_left fun s hs => ?_
  have hlt := List.mem_range.mp hs
  simp only [hzero]
  split
  · rw [htail _ (by omega), show s = size - 1 by omega, received_last bell reach hsize hi]
  · split
    · rw [htail _ hi.le, ‹s = 0›, received_first bell reach hsize]
    · rw [received_between bell reach (by omega) (by omega),
        getD_half_of_lt bell reach size (by split <;> omega)]
      congr 1
      split <;> omega

end

/-- In exact arithmetic the kernel in one half is the kernel in full with the end samples repeated:
each entry of a folded window is the sum of the taps whose nearest sample it stands for, and
together they are 1. Of one half of a kernel, the entries before the last are its taps, and the last
is the sum of those on one side from there on. -/
theorem folded_replicates {bell : ℕ → ℝ} (hbell : ∀ d, 0 < bell d) (reach : ℕ) :
    (∀ size i, 2 ≤ size → i < size →
      (folded bell reach size i).length = size ∧
      (∀ s < size, (folded bell reach size i)[s]? =
        some (∑ j ∈ Finset.range (2 * reach + 1),
          if nearestSample size ((i : ℤ) - reach + j) = s then (full bell reach).getD j 0 else 0)) ∧
      (folded bell reach size i).sum = 1) ∧
    ∀ len,
      (half bell reach len).size = len + 1 ∧
      (∀ d < len, (half bell reach len)[d]? = some ((full bell reach).getD (reach + d) 0)) ∧
      (half bell reach len)[len]? =
        some (∑ d ∈ Finset.Ico len (reach + 1), (full bell reach).getD (reach + d) 0) := by
  refine ⟨fun size i hsize hi => ⟨?_, fun s hs => ?_, ?_⟩, fun len => ⟨?_, fun d hd => ?_, ?_⟩⟩
  · rw [folded_eq bell reach hsize hi, List.length_map, List.length_range]
  · rw [folded_eq bell reach hsize hi, List.getElem?_map, List.getElem?_range hs]
    rfl
  · rw [folded_eq bell reach hsize hi]
    exact sum_received bell reach hbell (by omega)
  · exact size_half bell reach len
  · have hsize := size_half bell reach len
    rw [getD_full_add, ← getD_half_of_lt bell reach len hd, ← Array.getElem_eq_getD (h := by omega)]
    exact Array.getElem?_eq_getElem (by omega)
  · have hsize := size_half bell reach len
    have hlast := getD_half_last bell reach len
    rw [← Array.getElem_eq_getD (h := by omega)] at hlast
    simp only [getD_full_add]
    rw [Array.getElem?_eq_getElem (by omega), hlast, tail]

/-- Around the second of four samples, a bell that falls by half from tap to tap gives 7 of 22 parts
to the first one. -/
theorem folded_replicates_four_samples :
    (∀ d : ℕ, (0 : ℝ) < (1 / 2) ^ d) ∧
      (folded (fun d => (1 / 2 : ℝ) ^ d) 3 4 1)[0]? = some (7 / 22) := by
  have hbell : ∀ d : ℕ, (0 : ℝ) < (1 / 2) ^ d := fun d => by positivity
  have hside : ∑ d ∈ Finset.Ico 1 4, (1 / 2 : ℝ) ^ d = 7 / 8 := by
    norm_num [Finset.sum_Ico_eq_sum_range, Finset.sum_range_succ]
  refine ⟨hbell, ?_⟩
  rw [((folded_replicates hbell 3).1 4 1 (by decide) (by decide)).2.1 0 (by decide)]
  simp only [Finset.sum_range_succ, Finset.sum_range_zero, nearestSample, getD_full, tap, total]
  norm_num [hside]

end Resampler.DiscreteKernel

import Resampler.Proofs.Binary64.Summation
import Resampler.Proofs.Taps.Centered
import Resampler.Proofs.Taps.Halved

/-!
The shares of a bell in doubles.

A kernel has the values of a bell divided by their sum. In doubles the sum is rounded at every
step, and may be infinite or no number at all, but as long as no value of the bell is negative
the shares stay what they are meant to be, up to a small factor: ordinary numbers that sum to a
bounded amount, or no numbers. This is so for a kernel that is laid out in full
(`Upright.light_full`), for one half of it (`Upright.light_half`) and for the windows that are
made of a half (`Upright.light_folded`).
-/

namespace Resampler

open Binary64

namespace DiscreteKernel

/-- The middle of the bell is no number, or no value of it is negative. -/
def Upright (bell : ℕ → Float) : Prop := value? (bell 0) = none ∨ ∀ d, NotNegative (bell d)

theorem Upright.light_full {bell : ℕ → Float} (h : Upright bell) {reach : ℕ}
    (hreach : reach < 2 ^ 32) : Light (full bell reach) 8 := by
  rw [full_eq_map]
  obtain hnone | hbell := h
  · have hmiddle : bell 0 ∈ taps bell reach :=
      List.mem_map.mpr ⟨reach, List.mem_range.mpr (by omega), by simp⟩
    exact (light_div_of_none _ (value_foldl_add_of_mem hmiddle hnone 0.0)).mono (by norm_num)
  · have htaps : ∀ x ∈ taps bell reach, NotNegative x := fun x hx => by
      obtain ⟨j, -, rfl⟩ := List.mem_map.mp hx
      exact hbell _
    have hzero : NotNegative 0.0 := is_zero.notNegative le_rfl
    refine light_div htaps (hzero.foldl_add htaps) fun b hb => ?_
    obtain ⟨-, hall, -, -⟩ := foldl_add_amount hzero htaps hb
    have hsum := amount_add_sum_le hzero htaps (by rw [length_taps]; omega) hb
    have hpos := sum_amount_nonneg htaps
    rw [is_zero.amount_eq] at hsum
    exact ⟨hall, by linarith⟩

/-! ### One half of a kernel -/

section

variable {bell : ℕ → Float} {reach len : ℕ}

/-- The distances that have a place of their own. -/
theorem filter_min_of_lt {n k : ℕ} (hpos : 0 < k) (hk : k < len) :
    (List.range' 1 n).filter (fun d => min d len = k) = if k ≤ n then [k] else [] := by
  induction n with
  | zero => simp [hpos.ne']
  | succ n ih =>
    rw [List.range'_1_concat, List.filter_append, ih, Nat.add_comm 1 n]
    rcases Nat.lt_trichotomy k (n + 1) with h | h | h
    · simp [Nat.le_of_lt_succ h, h.le, show min (n + 1) len ≠ k by omega]
    · simp [h, show min (n + 1) len = n + 1 by omega]
    · simp [show ¬k ≤ n by omega, show ¬k ≤ n + 1 by omega, show min (n + 1) len ≠ k by omega]

/-- The distances that share the last place. -/
theorem filter_min_last {n : ℕ} (hlen : 0 < len) :
    (List.range' 1 n).filter (fun d => min d len = len) =
      List.range' (1 + min (len - 1) n) (n - min (len - 1) n) := by
  have hsplit : List.range' 1 n = List.range' 1 (min (len - 1) n) ++
      List.range' (1 + min (len - 1) n) (n - min (len - 1) n) := by
    rw [List.range'_append_1]
    congr 1
    omega
  rw [hsplit, List.filter_append, List.filter_eq_nil_iff.mpr, List.filter_eq_self.mpr,
    List.nil_append]
  · intro d hd
    rw [List.mem_range'_1] at hd
    exact decide_eq_true (by omega)
  · intro d hd
    rw [List.mem_range'_1] at hd
    simp only [decide_eq_true_eq]
    omega

theorem notNegative_gathered (hbell : ∀ d, NotNegative (bell d)) (k : ℕ) :
    NotNegative (gathered bell len reach k) := by
  refine NotNegative.foldl_add ?_ fun x hx => ?_
  · split
    · exact hbell 0
    · exact is_zero.notNegative le_rfl
  · obtain ⟨d, -, rfl⟩ := List.mem_map.mp hx
    exact hbell d

theorem notNegative_doubled (hbell : ∀ d, NotNegative (bell d)) (n : ℕ) :
    NotNegative (doubled bell n) := by
  refine NotNegative.foldl_add (hbell 0) fun x hx => ?_
  obtain ⟨d, -, rfl⟩ := List.mem_map.mp hx
  exact (hbell d).double

/-- A place of one distance holds the value at this distance. -/
theorem gathered_of_lt {k : ℕ} (hk : k < len) (hfinite : k ≤ reach → Is (bell k) (amount (bell k)))
    (hpos : NotNegative (bell k)) :
    Is (gathered bell len reach k) (if k ≤ reach then amount (bell k) else 0) := by
  rcases Nat.eq_zero_or_pos k with rfl | hkpos
  · have hnone : (List.range' 1 reach).filter (fun d => min d len = 0) = [] := by
      refine List.filter_eq_nil_iff.mpr fun d hd => ?_
      rw [List.mem_range'_1] at hd
      simp only [decide_eq_true_eq]
      omega
    rw [gathered, hnone, if_pos (Nat.zero_le _)]
    exact hfinite (Nat.zero_le _)
  · rw [gathered, filter_min_of_lt hkpos hk, if_neg hkpos.ne']
    split
    case isTrue hle =>
      have hvalue := hfinite hle
      have hdouble := hvalue.isDouble hpos.amount_nonneg
      have hsum := Is.add le_rfl hpos.amount_nonneg is_zero hvalue
      rw [zero_add] at hsum
      exact hsum hdouble
    case isFalse => exact is_zero

theorem doubled_add (m r : ℕ) : doubled bell (m + r) =
    (((List.range' (1 + m) r).map bell).map (2.0 * ·)).foldl (· + ·) (doubled bell m) := by
  simp only [doubled, ← List.range'_append_1, List.map_append, List.foldl_append, List.map_map]
  rfl

section Doubled

variable (hbell : ∀ d, NotNegative (bell d))
include hbell

theorem notNegative_of_mem_doubled {s n : ℕ} {x : Float}
    (hx : x ∈ (List.range' s n).map fun d => 2.0 * bell d) : NotNegative x := by
  obtain ⟨d, -, rfl⟩ := List.mem_map.mp hx
  exact (hbell d).double

/-- A sum over both sides that is a finite number has finite terms. -/
theorem exists_of_doubled {n : ℕ} {b : ℝ} (hb : Is (doubled bell n) b) {d : ℕ} (hpos : 0 < d)
    (hd : d ≤ n) : ∃ a, 0 ≤ a ∧ Is (bell d) a ∧ Is (2.0 * bell d) (2 * a) := by
  obtain ⟨-, hside, -⟩ :=
    foldl_add_amount (hbell 0) (fun x => notNegative_of_mem_doubled hbell) hb
  have htwice := hside _ (List.mem_map_of_mem (List.mem_range'_1.mpr ⟨hpos, by omega⟩))
  obtain ⟨a, ha, hapos, hdouble⟩ := exists_of_double (hbell d) htwice
  exact ⟨a, hapos, ha, hdouble ▸ htwice⟩

theorem finite_of_doubled {n : ℕ} {b : ℝ} (hb : Is (doubled bell n) b) {d : ℕ} (hd : d ≤ n) :
    Is (bell d) (amount (bell d)) := by
  rcases Nat.eq_zero_or_pos d with rfl | hpos
  · exact (foldl_add_amount (hbell 0) (fun x => notNegative_of_mem_doubled hbell) hb).1
  · obtain ⟨a, -, ha, -⟩ := exists_of_doubled hbell hb hpos hd
    rwa [ha.amount_eq]

/-- The values up to distance `n` are no more than twice the sum over both sides. -/
theorem sum_le_doubled {n : ℕ} {b : ℝ} (hn : n ≤ 2 ^ 51) (hb : Is (doubled bell n) b) :
    ∑ d ∈ Finset.range (n + 1), amount (bell d) ≤ 2 * b := by
  have hsum := amount_add_sum_le (hbell 0) (fun x => notNegative_of_mem_doubled hbell)
    (by rwa [List.length_map, List.length_range']) hb
  have hside : (((List.range' 1 n).map fun d => 2.0 * bell d).map amount).sum =
      ∑ d ∈ Finset.range n, amount (2.0 * bell (1 + d)) := by
    rw [List.range'_eq_map_range, List.map_map, List.map_map]
    rfl
  have hdouble : ∀ d ∈ Finset.range n, amount (bell (d + 1)) ≤ amount (2.0 * bell (1 + d)) := by
    intro d hd
    have hle : 1 + d ≤ n := by
      have := Finset.mem_range.mp hd
      omega
    obtain ⟨a, hpos, ha, htwice⟩ := exists_of_doubled hbell hb (by omega) hle
    rw [htwice.amount_eq, Nat.add_comm d 1, ha.amount_eq]
    linarith
  rw [Finset.sum_range_succ', ← add_comm]
  rw [hside] at hsum
  linarith [Finset.sum_le_sum hdouble]

/-- The values of one half are finite if their sum over both sides is, and no more than three times
that sum. -/
theorem gathered_le (hlen : 0 < len) (hfew : len ≤ 2 ^ 51) {b : ℝ}
    (hb : Is (doubled bell reach) b) :
    (∀ k ≤ len, Is (gathered bell len reach k) (amount (gathered bell len reach k))) ∧
      ∑ k ∈ Finset.range (len + 1), amount (gathered bell len reach k) ≤ 4 * b := by
  -- up to distance `m`, every value has a place of its own; those after it share the last
  obtain ⟨m, hm⟩ : ∃ m, m = min (len - 1) reach := ⟨_, rfl⟩
  have hsplit : doubled bell reach =
      (((List.range' (1 + m) (reach - m)).map bell).map (2.0 * ·)).foldl (· + ·)
        (doubled bell m) := by
    rw [← doubled_add, Nat.add_sub_cancel' (hm ▸ Nat.min_le_right _ _)]
  have hnear : ∀ k < len, Is (gathered bell len reach k) (if k ≤ reach then amount (bell k) else 0) :=
    fun k hk => gathered_of_lt hk (finite_of_doubled hbell hb) (hbell k)
  have hrest : ∀ x ∈ (List.range' (1 + m) (reach - m)).map bell, NotNegative x := fun x hx => by
    obtain ⟨d, -, rfl⟩ := List.mem_map.mp hx
    exact hbell d
  have htwice : ∀ x ∈ ((List.range' (1 + m) (reach - m)).map bell).map (2.0 * ·),
      NotNegative x := fun x hx => by
    obtain ⟨y, hy, rfl⟩ := List.mem_map.mp hx
    exact (hrest y hy).double
  have hinit := notNegative_doubled hbell m
  rw [hsplit] at hb
  obtain ⟨hown, -, hle, -⟩ := foldl_add_amount hinit htwice hb
  obtain ⟨v, hv, -, hvle⟩ :=
    exists_foldl_add_le is_zero le_rfl hinit hinit.amount_nonneg hrest hb
  have hlast : Is (gathered bell len reach len) v := by
    rwa [gathered, filter_min_last hlen, ← hm, if_neg hlen.ne']
  refine ⟨fun k hk => ?_, ?_⟩
  · rcases hk.lt_or_eq with hk | rfl
    · rw [(hnear k hk).amount_eq]
      exact hnear k hk
    · rwa [hlast.amount_eq]
  · have hsame : ∑ k ∈ Finset.range len, amount (gathered bell len reach k) =
        ∑ k ∈ Finset.range (m + 1), amount (bell k) := by
      rw [Finset.sum_congr rfl fun k hk => (hnear k (Finset.mem_range.mp hk)).amount_eq,
        ← Finset.sum_filter]
      refine Finset.sum_congr (Finset.ext fun k => ?_) fun _ _ => rfl
      rw [Finset.mem_filter, Finset.mem_range, Finset.mem_range]
      omega
    have hsum := sum_le_doubled hbell (by omega) hown
    rw [Finset.sum_range_succ, hsame, hlast.amount_eq]
    linarith [hinit.amount_nonneg]

end Doubled

/-- The shares of one half. -/
theorem Upright.light_half (h : Upright bell) (hlen : 0 < len) (hfew : len ≤ 2 ^ 51) :
    Light (half bell reach len).toList 8 := by
  rw [toList_half]
  obtain hnone | hbell := h
  · exact (light_div_of_none _ (value_foldl_add_of_none hnone _)).mono (by norm_num)
  · refine light_div (fun x hx => ?_) (notNegative_doubled hbell reach) fun b hb => ?_
    · obtain ⟨k, -, rfl⟩ := List.mem_map.mp hx
      exact notNegative_gathered hbell k
    · obtain ⟨hfinite, hsum⟩ := gathered_le hbell hlen hfew hb
      refine ⟨fun x hx => ?_, ?_⟩
      · obtain ⟨k, hk, rfl⟩ := List.mem_map.mp hx
        exact hfinite k (Nat.le_of_lt_succ (List.mem_range.mp hk))
      · rw [List.map_map]
        exact hsum

/-- Each addition of a suffix sum costs a share of `2 ^ -52` at most. -/
theorem suffixSums_bounds {xs : List Float} (htame : ∀ x ∈ xs, Tame x)
    (hsum : (xs.map amount).sum ≤ 2 ^ 20) (hfew : xs.length ≤ 2 ^ 50) :
    ∀ s ∈ suffixSums xs,
      Tame s ∧ amount s ≤ (1 + 2 * xs.length / 2 ^ 52) * (xs.map amount).sum := by
  induction xs with
  | nil => nofun
  | cons x xs ih =>
    have hx := htame x List.mem_cons_self
    have hpos := hx.amount_nonneg
    have hothers : 0 ≤ (xs.map amount).sum := List.sum_nonneg fun v hv => by
      obtain ⟨y, hy, rfl⟩ := List.mem_map.mp hv
      exact (htame y (List.mem_cons_of_mem x hy)).amount_nonneg
    rw [List.map_cons, List.sum_cons] at hsum ⊢
    rw [List.length_cons] at hfew ⊢
    have ih := ih (fun y hy => htame y (List.mem_cons_of_mem x hy)) (by linarith) (by omega)
    have hcount : (xs.length : ℝ) / 2 ^ 52 ≤ 1 / 4 := by
      rw [div_le_iff₀ (by positivity)]
      have hcast : (xs.length : ℝ) ≤ 2 ^ 50 := by exact_mod_cast (by omega : xs.length ≤ 2 ^ 50)
      linarith
    have hzero : 0 ≤ (xs.length : ℝ) / 2 ^ 52 := by positivity
    have hgrown : (1 + 2 * xs.length / 2 ^ 52) * (xs.map amount).sum ≤
        (1 + 2 * (xs.length + 1 : ℕ) / 2 ^ 52) * (amount x + (xs.map amount).sum) := by
      push_cast
      gcongr <;> linarith
    intro s hs
    rw [suffixSums] at hs
    split at hs
    case h_1 =>
      obtain rfl := List.mem_singleton.mp hs
      refine ⟨hx, ?_⟩
      have hfactor : 0 ≤ 2 * ((xs.length + 1 : ℕ) : ℝ) / 2 ^ 52 := by positivity
      nlinarith
    case h_2 u us hu =>
      rw [hu] at ih
      rcases List.mem_cons.mp hs with rfl | hs
      · obtain ⟨htail, hle⟩ := ih u List.mem_cons_self
        obtain ⟨hadd, hrounded⟩ := hx.add htail (le_trans (by nlinarith : _ ≤ (2 : ℝ) ^ (22 : ℤ))
          (zpow_le_zpow_right₀ one_le_two (by norm_num)))
        refine ⟨hadd, hrounded.trans ?_⟩
        calc (1 + 1 / 2 ^ 52) * (amount x + amount u)
            ≤ (1 + 1 / 2 ^ 52) *
                (amount x + (1 + 2 * xs.length / 2 ^ 52) * (xs.map amount).sum) := by gcongr
          _ ≤ (1 + 2 * (xs.length + 1 : ℕ) / 2 ^ 52) * (amount x + (xs.map amount).sum) := by
            push_cast
            nlinarith
      · exact ⟨(ih s hs).1, (ih s hs).2.trans hgrown⟩

/-- A sum over the distances to a sample counts every distance twice at most. -/
theorem sum_distance_le {f : ℕ → ℝ} (hf : ∀ d, 0 ≤ f d) {size i : ℕ} (hi : i < size) :
    ∑ s ∈ Finset.range size, f (if i ≤ s then s - i else i - s) ≤
      2 * ∑ d ∈ Finset.range size, f d := by
  obtain ⟨r, rfl⟩ := Nat.exists_eq_add_of_lt hi
  have hmono : ∀ {n : ℕ}, n ≤ i + r + 1 →
      ∑ d ∈ Finset.range n, f d ≤ ∑ d ∈ Finset.range (i + r + 1), f d := fun hn =>
    Finset.sum_le_sum_of_subset_of_nonneg (Finset.range_mono hn) fun d _ _ => hf d
  have hbefore : ∑ s ∈ Finset.range i, f (if i ≤ s then s - i else i - s) ≤
      ∑ d ∈ Finset.range (i + 1), f d := by
    rw [Finset.sum_range_succ', ← Finset.sum_range_reflect]
    refine le_add_of_le_of_nonneg (Finset.sum_le_sum fun s hs => ?_) (hf 0)
    have hlt := Finset.mem_range.mp hs
    rw [if_neg (by omega), show i - (i - 1 - s) = s + 1 by omega]
  have hafter : ∑ s ∈ Finset.range (r + 1), f (if i ≤ i + s then i + s - i else i - (i + s)) =
      ∑ d ∈ Finset.range (r + 1), f d :=
    Finset.sum_congr rfl fun s _ => by rw [if_pos (Nat.le_add_right i s), Nat.add_sub_cancel_left]
  rw [Nat.add_assoc, Finset.sum_range_add, hafter, ← Nat.add_assoc]
  linarith [hmono (by omega : i + 1 ≤ i + r + 1), hmono (by omega : r + 1 ≤ i + r + 1)]

theorem tame_getD {xs : Array Float} (h : ∀ x ∈ xs.toList, Tame x) (d : ℕ) :
    Tame (xs.getD d 0.0) := by
  rw [Array.getD_eq_getD_getElem?]
  cases hx : xs[d]? with
  | none => exact .inr ⟨0, is_zero, le_rfl⟩
  | some x => exact h x (Array.mem_toList_iff.mpr (Array.mem_of_getElem? hx))

theorem sum_amount_getD_le {xs : Array Float} (h : ∀ x ∈ xs.toList, Tame x) {n : ℕ}
    (hn : n ≤ xs.size) :
    ∑ d ∈ Finset.range n, amount (xs.getD d 0.0) ≤ (xs.toList.map amount).sum := by
  have hall : ∑ d ∈ Finset.range (xs.toList.map amount).length, amount (xs.getD d 0.0) =
      (xs.toList.map amount).sum := by
    refine sum_range_getElem fun d hd => ?_
    rw [List.getElem_map, Array.getElem_toList, Array.getElem_eq_getD 0.0]
  rw [← hall, List.length_map, Array.length_toList]
  exact Finset.sum_le_sum_of_subset_of_nonneg (Finset.range_mono hn) fun d _ _ =>
    (tame_getD h d).amount_nonneg

/-- A window that is the whole axis has two tails, and no value of the half more than twice. -/
theorem light_onAxis {half tails : Array Float} {b c : ℝ} (hhalf : Light half.toList b)
    (htails : ∀ s ∈ tails.toList, Tame s ∧ amount s ≤ c) (hc : 0 ≤ c) {size i : ℕ}
    (hsize : size ≤ half.size) (hi : i < size) :
    Light (onAxis half tails size i) (2 * b + 2 * c) := by
  have htail : ∀ d, Tame (tails.getD d 0.0) ∧ amount (tails.getD d 0.0) ≤ c := fun d => by
    refine ⟨tame_getD (fun x hx => (htails x hx).1) d, ?_⟩
    rw [Array.getD_eq_getD_getElem?]
    cases hx : tails[d]? with
    | none => rwa [Option.getD_none, is_zero.amount_eq]
    | some x => exact (htails x (Array.mem_toList_iff.mpr (Array.mem_of_getElem? hx))).2
  have hnear := tame_getD hhalf.tame
  refine ⟨fun w hw => ?_, ?_⟩
  · obtain ⟨s, -, rfl⟩ := List.mem_map.mp hw
    split
    · exact (htail _).1
    · split
      · exact (htail _).1
      · exact hnear _
  · have hentry : ∀ s ∈ Finset.range size,
        amount (if s + 1 = size then tails.getD (size - 1 - i) 0.0
          else if s = 0 then tails.getD i 0.0
          else half.getD (if i ≤ s then s - i else i - s) 0.0) ≤
        (if s = size - 1 then c else 0) + (if s = 0 then c else 0) +
          amount (half.getD (if i ≤ s then s - i else i - s) 0.0) := by
      intro s hs
      have hpos := (hnear (if i ≤ s then s - i else i - s)).amount_nonneg
      have hother : 0 ≤ if s = 0 then c else 0 := by
        split
        · exact hc
        · exact le_rfl
      by_cases hlast : s + 1 = size
      · rw [if_pos hlast, if_pos (by omega : s = size - 1)]
        linarith [(htail (size - 1 - i)).2]
      · rw [if_neg hlast, if_neg (by omega : ¬s = size - 1), zero_add]
        by_cases hfirst : s = 0
        · rw [if_pos hfirst, if_pos hfirst]
          linarith [(htail i).2]
        · rw [if_neg hfirst, if_neg hfirst, zero_add]
    have hsum := Finset.sum_le_sum hentry
    rw [Finset.sum_add_distrib, Finset.sum_add_distrib, Finset.sum_ite_eq', Finset.sum_ite_eq',
      if_pos (Finset.mem_range.mpr (by omega)), if_pos (Finset.mem_range.mpr (by omega))] at hsum
    have hdistances := sum_distance_le (fun d => (hnear d).amount_nonneg) hi
    have hall := (sum_amount_getD_le hhalf.tame hsize).trans hhalf.sum_le
    rw [onAxis, List.map_map]
    refine le_trans (le_of_eq_of_le rfl hsum) ?_
    linarith

/-- The weights of a window over a kernel that covers the axis. -/
theorem Upright.light_folded (h : Upright bell) {size i : ℕ} (hsize : size < 2 ^ 32) (hi : i < size) :
    Light (folded bell reach size i) 48 := by
  have hlen : (half bell reach size).toList.length = size + 1 := by
    rw [toList_half, List.length_map, List.length_map, List.length_range]
  have hlight : Light (half bell reach size).toList 8 := h.light_half (by omega) (by omega)
  have htails : ∀ s ∈ suffixSums (half bell reach size).toList, Tame s ∧ amount s ≤ 16 := by
    intro s hs
    obtain ⟨htame, hle⟩ := suffixSums_bounds hlight.tame (hlight.sum_le.trans (by norm_num))
      (by omega) s hs
    refine ⟨htame, hle.trans ?_⟩
    have hcast : ((size + 1 : ℕ) : ℝ) ≤ 2 ^ 32 := by exact_mod_cast hsize
    rw [hlen]
    calc (1 + 2 * ((size + 1 : ℕ) : ℝ) / 2 ^ 52) * ((half bell reach size).toList.map amount).sum
        ≤ (1 + 2 * ((size + 1 : ℕ) : ℝ) / 2 ^ 52) * 8 := by
          gcongr
          exact hlight.sum_le
      _ ≤ (1 + 2 * 2 ^ 32 / 2 ^ 52) * 8 := by gcongr
      _ ≤ 16 := by norm_num
  refine (light_onAxis hlight (by simpa using htails) (by norm_num) ?_ hi).mono (by norm_num)
  rw [← Array.length_toList, hlen]
  exact Nat.le_succ size

end

end DiscreteKernel

end Resampler

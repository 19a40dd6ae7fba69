import Mathlib
import KetSim.Engine.Sampling
import KetSim.Proofs.Exact

/-! # Picks

A draw picks the index whose step of the running sums it falls into, once it is scaled
by their total. An index that holds all the probability is picked by every draw.
-/
namespace KetSim

namespace Scalar

theorem clamp_real (x : ℝ) : Scalar.clamp x = max x 0 := by
  by_cases hx : 0 < x
  · rw [max_eq_left hx.le]
    simp [clamp, less, hx]
  · rw [max_eq_right (not_lt.mp hx)]
    simp [clamp, less, hx]

end Scalar

namespace Engine

/-- The leading entries that pass the test are counted, if no other entry passes it. -/
theorem partitionPoint_eq {α : Type} [Scalar α] {test : α → Bool} {sums : Array α}
    {low high k : ℕ} (hlow : low ≤ k) (hhigh : k ≤ high)
    (hbelow : ∀ i < k, test (sums.getD i 0) = true)
    (habove : ∀ i, k ≤ i → i < high → test (sums.getD i 0) = false) :
    partitionPoint test sums low high = k := by
  fun_induction partitionPoint test sums low high with
  | case1 low high hlt mid htest ih =>
    have hmid : mid < k := by
      by_contra hge
      have := habove mid (not_lt.mp hge) (by omega)
      simp_all
    exact ih hmid hhigh habove
  | case2 low high hlt mid htest ih =>
    have hmid : k ≤ mid := by
      by_contra hlt
      exact htest (hbelow mid (not_le.mp hlt))
    exact ih hlow hmid fun i hi hi' => habove i hi (by omega)
  | case3 low high hle => omega

/-- The sum of the clamped entries before an index. -/
noncomputable def cumulative (ps : List ℝ) (k : ℕ) : ℝ := ((ps.take k).map Scalar.clamp).sum

theorem cumulative_succ {ps : List ℝ} {k : ℕ} (hk : k < ps.length) :
    cumulative ps (k + 1) = cumulative ps k + Scalar.clamp ps[k] := by
  rw [cumulative, List.take_add_one, List.getElem?_eq_getElem hk, List.map_append, List.sum_append,
    cumulative]
  simp

theorem cumulative_mono (ps : List ℝ) : Monotone (cumulative ps) := by
  apply monotone_nat_of_le_succ
  intro k
  by_cases hk : k < ps.length
  · rw [cumulative_succ hk, Scalar.clamp_real]
    exact le_add_of_nonneg_right (le_max_right _ _)
  · rw [cumulative, cumulative, List.take_of_length_le (by omega),
      List.take_of_length_le (by omega)]

theorem getD_runningSums (start : ℝ) {ps : List ℝ} {i : ℕ} (hi : i < ps.length) :
    (runningSums start ps).getD i 0 = start + cumulative ps (i + 1) := by
  induction ps generalizing start i with
  | nil => cases hi
  | cons p rest ih =>
    rw [runningSums_cons]
    cases i with
    | zero => simp [cumulative]
    | succ i =>
      rw [List.getD_cons_succ, ih _ (by simpa using hi)]
      simp [cumulative, add_assoc]

/-- A draw between the sum before an index and the sum with it picks the index. -/
theorem pick_eq {ps : List ℝ} {k : ℕ} (hk : k < ps.length) {total draw : ℝ}
    (hlow : cumulative ps k ≤ draw * total) (hhigh : draw * total < cumulative ps (k + 1)) :
    pick (runningSums 0 ps).toArray total draw = k := by
  have hsum {i : ℕ} (hi : i < ps.length) :
      (runningSums 0 ps).toArray.getD i 0 = cumulative ps (i + 1) := by
    have := getD_runningSums 0 hi
    simpa using this
  have hpoint : partitionPoint (Scalar.atMost · (draw * total)) (runningSums 0 ps).toArray 0
      ps.length = k := by
    refine partitionPoint_eq (Nat.zero_le k) hk.le (fun i hi => ?_) fun i hi hlt => ?_
    · rw [hsum (hi.trans hk)]
      have := (cumulative_mono ps (show i + 1 ≤ k by omega)).trans hlow
      simpa [Scalar.atMost] using this
    · rw [hsum hlt]
      have := hhigh.trans_le (cumulative_mono ps (show k + 1 ≤ i + 1 by omega))
      simpa [Scalar.atMost] using this
  simp only [pick, List.size_toArray, length_runningSums, hpoint]
  omega

theorem back?_runningSums {ps : List ℝ} (hp : ps ≠ []) :
    (runningSums 0 ps).toArray.back? = some (cumulative ps ps.length) := by
  have hlength := List.length_pos_of_ne_nil hp
  have hlast : ps.length - 1 < ps.length := by omega
  have hsum := getD_runningSums 0 hlast
  rw [Nat.sub_add_cancel hlength, zero_add,
    List.getD_eq_getElem _ _ (by simpa using hlast)] at hsum
  rw [List.back?_toArray, List.getLast?_eq_getElem?, length_runningSums,
    List.getElem?_eq_getElem (by simpa using hlast), hsum]

theorem pickAll_eq {ps : List ℝ} (hp : ps ≠ []) (draws : List ℝ) :
    pickAll ps draws = draws.map (pick (runningSums 0 ps).toArray (cumulative ps ps.length)) := by
  simp only [pickAll, back?_runningSums hp]

theorem unitDraw_mem_Ico {numerator : ℕ} (h : numerator < 2 ^ 53) :
    (unitDraw numerator : ℝ) ∈ Set.Ico (0 : ℝ) 1 := by
  have hlt : (numerator : ℝ) < 2 ^ 53 := by exact_mod_cast h
  constructor
  · simp [unitDraw]
    positivity
  · simp only [unitDraw, Scalar.ofNat_real, Nat.cast_pow, Nat.cast_ofNat]
    rw [div_lt_one (by positivity)]
    exact hlt

theorem cumulative_of_certain {ps : List ℝ} {k : ℕ}
    (hp : ∀ i < ps.length, ps.getD i 0 = if i = k then 1 else 0) {j : ℕ} (hj : j ≤ ps.length) :
    cumulative ps j = if k < j then 1 else 0 := by
  induction j with
  | zero => simp [cumulative]
  | succ j ih =>
    have hentry := hp j (by omega)
    rw [List.getD_eq_getElem _ _ (by omega)] at hentry
    rw [cumulative_succ (by omega), ih (by omega), hentry, Scalar.clamp_real]
    rcases lt_trichotomy j k with h | h | h
    · simp [show ¬k < j by omega, show ¬k < j + 1 by omega, h.ne]
    · simp [h]
    · simp [h, show k < j + 1 by omega, h.ne']

/-- Every draw picks the index that holds all the probability. -/
theorem sample_of_certain {ps : List ℝ} {k : ℕ} (hk : k < ps.length)
    (hp : ∀ i < ps.length, ps.getD i 0 = if i = k then 1 else 0) (shots : ℕ) (seed : UInt64) :
    sample ps shots seed = List.replicate shots k := by
  have hne : ps ≠ [] := List.ne_nil_of_length_pos (by omega)
  rw [sample, pickAll_eq hne, List.eq_replicate_iff]
  refine ⟨by simp, ?_⟩
  intro x hx
  simp only [List.map_map, List.mem_map, Function.comp_apply] at hx
  obtain ⟨numerator, hn, rfl⟩ := hx
  obtain ⟨hzero, hone⟩ := unitDraw_mem_Ico (Random.lt_of_mem_draws hn)
  have htotal : cumulative ps ps.length = 1 := by rw [cumulative_of_certain hp le_rfl, if_pos hk]
  have hbefore : cumulative ps k = 0 := by
    rw [cumulative_of_certain hp hk.le, if_neg (lt_irrefl k)]
  have hwith : cumulative ps (k + 1) = 1 := by
    rw [cumulative_of_certain hp hk, if_pos (Nat.lt_succ_self k)]
  rw [htotal]
  apply pick_eq hk
  · rwa [hbefore, mul_one]
  · rwa [hwith, mul_one]

end Engine

end KetSim

import Mathlib
import KetSim.Engine.Sampling
import KetSim.Proofs.Engine.Picks

/-! # Sampling by the inverse of the running sums

The steps of the running sums divide the scaled draws among the indices: every draw
from the unit interval lies in exactly one step, whose index is picked. Entries that
are not positive have no step, and the others have one of their share of the total.
The draws of a seed do not depend on how many are asked for.
-/
namespace KetSim

/-! ## Prefixes of draws -/

namespace Random

theorem words_take {m n : ℕ} (h : m ≤ n) (seed : UInt64) :
    (words seed n).take m = words seed m := by
  -- the blocks for the shorter request come first, and they hold words enough for it
  obtain ⟨extra, hextra⟩ := Nat.exists_eq_add_of_le (show (m + 7) / 8 ≤ (n + 7) / 8 by omega)
  have hlength : m ≤ (((List.range ((m + 7) / 8)).map fun k =>
      block (key seed) k.toUInt64).flatMap doubleWords).length := by
    simp only [List.length_flatMap, List.map_map, Function.comp_def, length_doubleWords,
      List.map_const', List.sum_replicate_nat, List.length_range]
    omega
  simp only [words, List.take_take, min_eq_left h]
  rw [hextra, List.range_add, List.map_append, List.flatMap_append,
    List.take_append_of_le_length hlength]

theorem draws_take {m n : ℕ} (h : m ≤ n) (seed : UInt64) :
    (draws seed n).take m = draws seed m := by
  rw [draws, draws, ← List.map_take, words_take h]

end Random

namespace Engine

theorem pickAll_take {α : Type} [Scalar α] (ps draws : List α) (m : ℕ) :
    (pickAll ps draws).take m = pickAll ps (draws.take m) := by
  simp only [pickAll]
  cases (runningSums 0 ps).toArray.back? with
  | none => exact List.take_nil
  | some total => exact List.map_take.symm

/-- A shorter request yields the first picks of a longer one. -/
theorem sample_take {α : Type} [Scalar α] (ps : List α) {m n : ℕ} (h : m ≤ n) (seed : UInt64) :
    (sample ps n seed).take m = sample ps m seed := by
  rw [sample, sample, pickAll_take, ← List.map_take, Random.draws_take h]

/-! ## Steps -/

theorem cumulative_eq (ps : List ℝ) (k : ℕ) :
    cumulative ps k = ((ps.take k).map fun p => max p 0).sum := by
  rw [cumulative, funext Scalar.clamp_real]

theorem cumulative_pos {ps : List ℝ} {k : ℕ} (hk : k < ps.length) (hp : 0 < ps.getD k 0) :
    0 < cumulative ps ps.length := by
  rw [List.getD_eq_getElem _ _ hk] at hp
  calc 0 ≤ cumulative ps k := by simpa [cumulative] using cumulative_mono ps (Nat.zero_le k)
    _ < cumulative ps (k + 1) := by
      rw [cumulative_succ hk, Scalar.clamp_real, max_eq_left hp.le]
      exact lt_add_of_pos_right _ hp
    _ ≤ cumulative ps ps.length := cumulative_mono ps hk

/-- The scaled draw lies in the step of an index. -/
structure InStep (ps : List ℝ) (draw : ℝ) (i : ℕ) : Prop where
  lt_length : i < ps.length
  le : cumulative ps i ≤ draw * cumulative ps ps.length
  lt : draw * cumulative ps ps.length < cumulative ps (i + 1)

variable {ps : List ℝ} {draw : ℝ} {i : ℕ}

theorem InStep.pick_eq (h : InStep ps draw i) :
    pick (runningSums 0 ps).toArray (cumulative ps ps.length) draw = i :=
  Engine.pick_eq h.lt_length h.le h.lt

theorem InStep.pos (h : InStep ps draw i) : 0 < ps.getD i 0 := by
  have hlt := h.le.trans_lt h.lt
  rw [cumulative_succ h.lt_length, lt_add_iff_pos_right, Scalar.clamp_real, lt_max_iff] at hlt
  rw [List.getD_eq_getElem _ _ h.lt_length]
  exact hlt.resolve_right (lt_irrefl 0)

variable (hps : 0 < cumulative ps ps.length)
include hps

/-- The first running sum beyond a scaled draw ends the step that it lies in. -/
theorem exists_inStep (hdraw : draw ∈ Set.Ico (0 : ℝ) 1) : ∃ i, InStep ps draw i := by
  have hlast : draw * cumulative ps ps.length < cumulative ps ps.length :=
    mul_lt_of_lt_one_left hps hdraw.2
  have hfirst : ¬ draw * cumulative ps ps.length < cumulative ps 0 := by
    simpa [cumulative] using mul_nonneg hdraw.1 hps.le
  classical
  have hbeyond : ∃ k, draw * cumulative ps ps.length < cumulative ps k := ⟨_, hlast⟩
  obtain ⟨i, hi⟩ : ∃ i, Nat.find hbeyond = i + 1 := by
    refine Nat.exists_eq_succ_of_ne_zero fun hzero => hfirst ?_
    rw [← hzero]
    exact Nat.find_spec hbeyond
  have hle : Nat.find hbeyond ≤ ps.length := Nat.find_le hlast
  refine ⟨i, by omega, not_lt.mp (Nat.find_min hbeyond (by omega)), ?_⟩
  rw [← hi]
  exact Nat.find_spec hbeyond

theorem inStep_iff (hdraw : draw ∈ Set.Ico (0 : ℝ) 1) :
    InStep ps draw i ↔ pick (runningSums 0 ps).toArray (cumulative ps ps.length) draw = i := by
  refine ⟨InStep.pick_eq, ?_⟩
  rintro rfl
  obtain ⟨j, hj⟩ := exists_inStep hps hdraw
  rwa [hj.pick_eq]

theorem ne_nil_of_pos : ps ≠ [] := by
  rintro rfl
  simp [cumulative] at hps

/-- Only indices of positive entries are sampled. -/
theorem pos_of_mem_sample {shots : ℕ} {seed : UInt64} (hi : i ∈ sample ps shots seed) :
    0 < ps.getD i 0 := by
  rw [sample, pickAll_eq (ne_nil_of_pos hps), List.map_map] at hi
  obtain ⟨numerator, hnumerator, rfl⟩ := List.mem_map.mp hi
  have hdraw := unitDraw_mem_Ico (Random.lt_of_mem_draws hnumerator)
  exact ((inStep_iff hps hdraw).mpr rfl).pos

theorem length_sample (shots : ℕ) (seed : UInt64) : (sample ps shots seed).length = shots := by
  rw [sample, pickAll_eq (ne_nil_of_pos hps)]
  simp

/-- The draws that pick an index. -/
theorem draws_of_pick (hi : i < ps.length) :
    {u ∈ Set.Ico (0 : ℝ) 1 | pickAll ps [u] = [i]} =
      Set.Ico (cumulative ps i / cumulative ps ps.length)
        (cumulative ps (i + 1) / cumulative ps ps.length) := by
  ext u
  rw [Set.mem_ofPred_eq, Set.mem_Ico (a := _ / _), div_le_iff₀ hps, lt_div_iff₀ hps,
    pickAll_eq (ne_nil_of_pos hps), List.map_singleton, List.singleton_inj]
  constructor
  · rintro ⟨hu, hpick⟩
    have hstep := (inStep_iff hps hu).mpr hpick
    exact ⟨hstep.le, hstep.lt⟩
  · rintro ⟨hle, hlt⟩
    have hstep : InStep ps u i := ⟨hi, hle, hlt⟩
    refine ⟨⟨?_, ?_⟩, hstep.pick_eq⟩
    · have hzero : 0 ≤ cumulative ps i := by
        simpa [cumulative] using cumulative_mono ps (Nat.zero_le i)
      exact nonneg_of_mul_nonneg_left (hzero.trans hle) hps
    · have hone := hlt.trans_le (cumulative_mono ps (Nat.succ_le_of_lt hi))
      exact (mul_lt_iff_lt_one_left hps).mp hone

/-- Whatever the draws from the unit interval, each shot picks the one index whose step of the
running sums its scaled draw lies in, so its entry is positive. An index is picked by the draws of
an interval that is as long as its share of the total. The sampler takes as many draws as shots
are asked for, and with one seed a shorter request yields the first picks of a longer one. -/
theorem sample_inverts_sums :
    (∀ k, cumulative ps k = ((ps.take k).map fun p => max p 0).sum) ∧
    (∀ draws : List ℝ, (∀ u ∈ draws, u ∈ Set.Ico (0 : ℝ) 1) →
      List.Forall₂ (fun u i => 0 < ps.getD i 0 ∧ ∀ j, InStep ps u j ↔ j = i)
        draws (pickAll ps draws)) ∧
    (∀ i < ps.length,
      {u ∈ Set.Ico (0 : ℝ) 1 | pickAll ps [u] = [i]} =
        Set.Ico (cumulative ps i / cumulative ps ps.length)
          (cumulative ps (i + 1) / cumulative ps ps.length) ∧
      cumulative ps (i + 1) / cumulative ps ps.length -
        cumulative ps i / cumulative ps ps.length =
          max (ps.getD i 0) 0 / cumulative ps ps.length) ∧
    ∀ (seed : UInt64) (n : ℕ),
      (sample ps n seed).length = n ∧
      (∃ draws : List ℝ, (∀ u ∈ draws, u ∈ Set.Ico (0 : ℝ) 1) ∧
        sample ps n seed = pickAll ps draws) ∧
      ∀ m ≤ n, sample ps m seed <+: sample ps n seed := by
  have hne := ne_nil_of_pos hps
  refine ⟨cumulative_eq ps, fun draws hdraws => ?_, fun i hi => ⟨draws_of_pick hps hi, ?_⟩,
    fun seed n => ⟨?_, ⟨_, ?_, rfl⟩, fun m hm => ?_⟩⟩
  · rw [pickAll_eq hne, List.forall₂_map_right_iff, List.forall₂_same]
    intro u hu
    have hstep := (inStep_iff hps (hdraws u hu)).mpr rfl
    exact ⟨hstep.pos, fun j => (inStep_iff hps (hdraws u hu)).trans eq_comm⟩
  · rw [← sub_div, cumulative_succ hi, add_sub_cancel_left, Scalar.clamp_real,
      List.getD_eq_getElem _ _ hi]
  · rw [sample, pickAll_eq hne]
    simp
  · intro u hu
    obtain ⟨numerator, hnumerator, rfl⟩ := List.mem_map.mp hu
    exact unitDraw_mem_Ico (Random.lt_of_mem_draws hnumerator)
  · rw [← sample_take ps hm seed]
    exact List.take_prefix m _

omit hps in
/-- Entries that are not positive are passed over, also by a draw on the boundary of a step. -/
theorem sample_inverts_sums_boundary :
    0 < cumulative [-1, 1 / 2, 0, 3 / 2] 4 ∧
      pickAll ([-1, 1 / 2, 0, 3 / 2] : List ℝ) [0, 1 / 4] = [1, 3] := by
  have hps : cumulative [-1, 1 / 2, 0, 3 / 2] 4 = 2 := by norm_num [cumulative_eq]
  have hpos : 0 < cumulative [-1, 1 / 2, 0, 3 / 2] 4 := by rw [hps]; norm_num
  refine ⟨hpos, ?_⟩
  have hpicks := (sample_inverts_sums hpos).2.1 [0, 1 / 4] (by norm_num)
  obtain ⟨i, rest, ⟨-, hi⟩, hrest, hpick⟩ := List.forall₂_cons_left_iff.mp hpicks
  obtain ⟨j, none, ⟨-, hj⟩, hnone, rfl⟩ := List.forall₂_cons_left_iff.mp hrest
  have hfirst : InStep [-1, 1 / 2, 0, 3 / 2] 0 1 := by
    constructor <;> norm_num [cumulative_eq]
  have hsecond : InStep [-1, 1 / 2, 0, 3 / 2] (1 / 4) 3 := by
    constructor <;> norm_num [cumulative_eq]
  rw [hpick, ← (hi 1).mp hfirst, ← (hj 3).mp hsecond, List.forall₂_nil_left_iff.mp hnone]

end Engine

end KetSim

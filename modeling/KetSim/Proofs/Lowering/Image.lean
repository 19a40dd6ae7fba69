import Mathlib
import KetSim.Lowering.Gate
import KetSim.Proofs.Circuit.Meaning
import KetSim.Proofs.Engine.Action

/-! # Images of gates

The engine gates that stand for a source gate act together as the documented
unitary of that gate, on the same operands. Angles become radians, rotations of
the engine have the opposite sense, and a controlled `Y` is a controlled `X`
between two phase gates.
-/
namespace KetSim

open Engine (rows2)

/-! ## Unitaries of engine gates -/

namespace Engine.Gate

theorem action_eq_onQubit {g : Gate ℝ} {q : ℕ} (hq : g.qubits = [q]) {a b c d : Cplx ℝ}
    (hg : g.entries = rows2 a b c d) {U : OneQubit}
    (hU : !![a.toComplex, b.toComplex; c.toComplex, d.toComplex] = U) :
    g.action = Ket.onQubit U q := by
  funext ψ
  rw [action_of_qubits_eq hq, unitary_rows2 hg, hU]

theorem action_eq_phase {g : Gate ℝ} {q : ℕ} (hq : g.qubits = [q]) {angle : ℝ}
    (hg : g.entries = diagonal (Cplx.cis angle)) {t : ℝ} (ht : t * Real.pi = angle) :
    g.action = Ket.onQubit !![1, 0; 0, OneQubit.phase t] q := by
  refine action_eq_onQubit hq hg ?_
  have hphase : Complex.exp (angle * Complex.I) = OneQubit.phase t := by
    rw [OneQubit.phase, ← ht]
    congr 1
    push_cast
    ring
  simp [hphase]

theorem action_t (q : ℕ) :
    (t q : Gate ℝ).action = Ket.onQubit !![1, 0; 0, OneQubit.phase (1 / 4)] q :=
  action_eq_phase rfl rfl (by simp; ring)

theorem action_tdag (q : ℕ) :
    (tdag q : Gate ℝ).action = Ket.onQubit !![1, 0; 0, OneQubit.phase (-(1 / 4))] q :=
  action_eq_phase rfl rfl (by simp; ring)

theorem action_y (q : ℕ) : (y q : Gate ℝ).action = Ket.onQubit OneQubit.pauliY q := by
  refine action_eq_onQubit rfl rfl ?_
  ext i j
  fin_cases i <;> fin_cases j <;> apply Complex.ext <;> simp [OneQubit.pauliY]

theorem action_h (q : ℕ) :
    (h q : Gate ℝ).action = Ket.onQubit ((1 / √2 : ℂ) • !![1, 1; 1, -1]) q := by
  refine action_eq_onQubit rfl rfl ?_
  ext i j
  fin_cases i <;> fin_cases j <;> simp

theorem action_s (q : ℕ) : (s q : Gate ℝ).action = Ket.onQubit !![1, 0; 0, Complex.I] q := by
  refine action_eq_onQubit rfl rfl ?_
  ext i j
  fin_cases i <;> fin_cases j <;> apply Complex.ext <;> simp

theorem action_sdag (q : ℕ) :
    (sdag q : Gate ℝ).action = Ket.onQubit !![1, 0; 0, -Complex.I] q := by
  refine action_eq_onQubit rfl rfl ?_
  ext i j
  fin_cases i <;> fin_cases j <;> apply Complex.ext <;> simp

theorem action_sqrtX (q : ℕ) : (sqrtX q : Gate ℝ).action = Ket.onQubit ((1 / 2 : ℂ) •
    !![1 + Complex.I, 1 - Complex.I; 1 - Complex.I, 1 + Complex.I]) q := by
  refine action_eq_onQubit rfl rfl ?_
  ext i j
  fin_cases i <;> fin_cases j <;> apply Complex.ext <;> simp

theorem action_sqrtXdag (q : ℕ) : (sqrtXdag q : Gate ℝ).action = Ket.onQubit ((1 / 2 : ℂ) •
    !![1 - Complex.I, 1 + Complex.I; 1 + Complex.I, 1 - Complex.I]) q := by
  refine action_eq_onQubit rfl rfl ?_
  ext i j
  fin_cases i <;> fin_cases j <;> apply Complex.ext <;> simp

theorem half_of_neg (a : ℝ) : -(a * Real.pi) / 2 = -(a * Real.pi / 2) := by ring

theorem ofReal_cos_half (a : ℝ) : ((Real.cos (a * Real.pi / 2) : ℝ) : ℂ) =
    Complex.cos (a * Real.pi / 2) := by
  rw [Complex.ofReal_cos]
  push_cast
  rfl

theorem ofReal_sin_half (a : ℝ) : ((Real.sin (a * Real.pi / 2) : ℝ) : ℂ) =
    Complex.sin (a * Real.pi / 2) := by
  rw [Complex.ofReal_sin]
  push_cast
  rfl

theorem exp_halfTurn (t : ℝ) :
    Complex.exp ((Scalar.halfTurn t : ℝ) * Complex.I) = OneQubit.phase t := by
  rw [OneQubit.phase, Scalar.halfTurn_real]
  congr 1
  push_cast
  ring

theorem action_rx (q : ℕ) (a : ℝ) : (rx q (-Scalar.halfTurn a) : Gate ℝ).action =
    Ket.onQubit (OneQubit.rotation OneQubit.pauliX a) q := by
  refine action_eq_onQubit rfl rfl ?_
  rw [OneQubit.rotation_pauliX, ← ofReal_cos_half, ← ofReal_sin_half]
  ext i j
  fin_cases i <;> fin_cases j <;> apply Complex.ext <;>
    simp [half_of_neg, -Complex.ofReal_cos, -Complex.ofReal_sin]

theorem action_ry (q : ℕ) (a : ℝ) : (ry q (-Scalar.halfTurn a) : Gate ℝ).action =
    Ket.onQubit (OneQubit.rotation OneQubit.pauliY a) q := by
  refine action_eq_onQubit rfl rfl ?_
  rw [OneQubit.rotation_pauliY, ← ofReal_cos_half, ← ofReal_sin_half]
  ext i j
  fin_cases i <;> fin_cases j <;> apply Complex.ext <;>
    simp [half_of_neg, -Complex.ofReal_cos, -Complex.ofReal_sin]

theorem action_rz (q : ℕ) (a : ℝ) : (rz q (-Scalar.halfTurn a) : Gate ℝ).action =
    Ket.onQubit (OneQubit.rotation OneQubit.pauliZ a) q := by
  refine action_eq_onQubit rfl rfl ?_
  rw [OneQubit.rotation_pauliZ]
  ext i j
  fin_cases i <;> fin_cases j <;> simp [half_of_neg]

theorem action_u3 (q : ℕ) (theta phi lam : ℝ) :
    (u3 q (Scalar.halfTurn theta) (Scalar.halfTurn phi) (Scalar.halfTurn lam) : Gate ℝ).action =
      Ket.onQubit (OneQubit.u3 theta phi lam) q := by
  refine action_eq_onQubit rfl rfl ?_
  have hsum : Scalar.halfTurn phi + Scalar.halfTurn lam = Scalar.halfTurn (phi + lam) := by
    simp only [Scalar.halfTurn_real]
    ring
  rw [OneQubit.u3, ← ofReal_cos_half, ← ofReal_sin_half, hsum, Cplx.toComplex_neg,
    Cplx.toComplex_polar, Cplx.toComplex_polar, Cplx.toComplex_polar, exp_halfTurn, exp_halfTurn,
    exp_halfTurn]
  ext i j
  fin_cases i <;> fin_cases j <;> simp [mul_comm]

theorem action_u2 (q : ℕ) (phi lam : ℝ) :
    (u2 q (Scalar.halfTurn phi) (Scalar.halfTurn lam) : Gate ℝ).action =
      Ket.onQubit ((1 / √2 : ℂ) • !![1, -OneQubit.phase lam; OneQubit.phase phi,
        OneQubit.phase (phi + lam)]) q := by
  refine action_eq_onQubit rfl rfl ?_
  have hsum : Scalar.halfTurn phi + Scalar.halfTurn lam = Scalar.halfTurn (phi + lam) := by
    simp only [Scalar.halfTurn_real]
    ring
  have hquarter : Real.pi / 2 / 2 = Real.pi / 4 := by ring
  have hroot : (√2 / 2 : ℂ) = (√2 : ℂ)⁻¹ := by
    have h := congrArg (fun x : ℝ => (x : ℂ)) (Real.sqrt_div_self (x := 2))
    push_cast at h
    exact h
  rw [hsum, Cplx.toComplex_neg,
    Cplx.toComplex_polar, Cplx.toComplex_polar, Cplx.toComplex_polar, exp_halfTurn, exp_halfTurn,
    exp_halfTurn]
  ext i j
  fin_cases i <;> fin_cases j <;> simp [hquarter, hroot]

end Engine.Gate

/-! ## Images -/

/-- A list of engine gates stands for a source gate: it is the image, and it acts as the
operator. -/
structure Realizes (op : StandardGate) (angles : List ℝ) (indices : List ℕ)
    (gates : List (Engine.Gate ℝ)) (f : Ket ℕ → Ket ℕ) : Prop where
  image : op.image indices (angles.map Scalar.halfTurn) = some gates
  operator : op.operator? angles indices = some f
  action : ∀ φ, gates.foldl (fun φ g => g.action φ) φ = f φ

theorem action_cy {c q : ℕ} (h : c ≠ q) (φ : Ket ℕ) :
    (Engine.Gate.s q : Engine.Gate ℝ).action
      ((Engine.Gate.cnot c q).action ((Engine.Gate.sdag q).action φ)) =
      Ket.controlled [c] (Ket.onQubit OneQubit.pauliY q) φ := by
  have hinv : (!![1, 0; 0, Complex.I] * !![1, 0; 0, -Complex.I] : OneQubit) = 1 := by
    simp [Matrix.one_fin_two]
  have hy : (!![1, 0; 0, Complex.I] * !![0, 1; 1, 0] * !![1, 0; 0, -Complex.I] : OneQubit) =
      OneQubit.pauliY := by
    simp [OneQubit.pauliY]
  rw [Engine.Gate.action_s, Engine.Gate.action_cnot h, Engine.Gate.action_sdag,
    Ket.onQubit_controlled_onQubit _ _ _ hinv h, hy]

/-- Every supported gate with the right numbers of operands and angles is realized by its image. -/
theorem StandardGate.exists_realizes {op : StandardGate} (hs : op.isSupported = true)
    {angles : List ℝ} (ha : angles.length = op.numParams) {indices : List ℕ}
    (hq : indices.length = op.numQubits) (hn : indices.Nodup) :
    ∃ gates f, Realizes op angles indices gates f := by
  cases op with
  | x =>
    obtain ⟨q, rfl⟩ := List.length_eq_one_iff.mp hq
    obtain rfl := List.length_eq_zero_iff.mp ha
    exact ⟨_, _, rfl, rfl, congrFun (Engine.Gate.action_x q)⟩
  | y =>
    obtain ⟨q, rfl⟩ := List.length_eq_one_iff.mp hq
    obtain rfl := List.length_eq_zero_iff.mp ha
    exact ⟨_, _, rfl, rfl, congrFun (Engine.Gate.action_y q)⟩
  | z =>
    obtain ⟨q, rfl⟩ := List.length_eq_one_iff.mp hq
    obtain rfl := List.length_eq_zero_iff.mp ha
    exact ⟨_, _, rfl, rfl, congrFun (Engine.Gate.action_z q)⟩
  | h =>
    obtain ⟨q, rfl⟩ := List.length_eq_one_iff.mp hq
    obtain rfl := List.length_eq_zero_iff.mp ha
    exact ⟨_, _, rfl, rfl, congrFun (Engine.Gate.action_h q)⟩
  | s =>
    obtain ⟨q, rfl⟩ := List.length_eq_one_iff.mp hq
    obtain rfl := List.length_eq_zero_iff.mp ha
    exact ⟨_, _, rfl, rfl, congrFun (Engine.Gate.action_s q)⟩
  | sdg =>
    obtain ⟨q, rfl⟩ := List.length_eq_one_iff.mp hq
    obtain rfl := List.length_eq_zero_iff.mp ha
    exact ⟨_, _, rfl, rfl, congrFun (Engine.Gate.action_sdag q)⟩
  | t =>
    obtain ⟨q, rfl⟩ := List.length_eq_one_iff.mp hq
    obtain rfl := List.length_eq_zero_iff.mp ha
    exact ⟨_, _, rfl, rfl, congrFun (Engine.Gate.action_t q)⟩
  | tdg =>
    obtain ⟨q, rfl⟩ := List.length_eq_one_iff.mp hq
    obtain rfl := List.length_eq_zero_iff.mp ha
    exact ⟨_, _, rfl, rfl, congrFun (Engine.Gate.action_tdag q)⟩
  | sx =>
    obtain ⟨q, rfl⟩ := List.length_eq_one_iff.mp hq
    obtain rfl := List.length_eq_zero_iff.mp ha
    exact ⟨_, _, rfl, rfl, congrFun (Engine.Gate.action_sqrtX q)⟩
  | sxdg =>
    obtain ⟨q, rfl⟩ := List.length_eq_one_iff.mp hq
    obtain rfl := List.length_eq_zero_iff.mp ha
    exact ⟨_, _, rfl, rfl, congrFun (Engine.Gate.action_sqrtXdag q)⟩
  | rx =>
    obtain ⟨q, rfl⟩ := List.length_eq_one_iff.mp hq
    obtain ⟨a, rfl⟩ := List.length_eq_one_iff.mp ha
    exact ⟨_, _, rfl, rfl, congrFun (Engine.Gate.action_rx q a)⟩
  | ry =>
    obtain ⟨q, rfl⟩ := List.length_eq_one_iff.mp hq
    obtain ⟨a, rfl⟩ := List.length_eq_one_iff.mp ha
    exact ⟨_, _, rfl, rfl, congrFun (Engine.Gate.action_ry q a)⟩
  | rz =>
    obtain ⟨q, rfl⟩ := List.length_eq_one_iff.mp hq
    obtain ⟨a, rfl⟩ := List.length_eq_one_iff.mp ha
    exact ⟨_, _, rfl, rfl, congrFun (Engine.Gate.action_rz q a)⟩
  | u1 =>
    obtain ⟨q, rfl⟩ := List.length_eq_one_iff.mp hq
    obtain ⟨a, rfl⟩ := List.length_eq_one_iff.mp ha
    exact ⟨_, _, rfl, rfl, congrFun (Engine.Gate.action_eq_phase rfl rfl rfl)⟩
  | u2 =>
    obtain ⟨q, rfl⟩ := List.length_eq_one_iff.mp hq
    obtain ⟨a, b, rfl⟩ := List.length_eq_two.mp ha
    exact ⟨_, _, rfl, rfl, congrFun (Engine.Gate.action_u2 q a b)⟩
  | u3 =>
    obtain ⟨q, rfl⟩ := List.length_eq_one_iff.mp hq
    obtain ⟨a, b, c, rfl⟩ := List.length_eq_three.mp ha
    exact ⟨_, _, rfl, rfl, congrFun (Engine.Gate.action_u3 q a b c)⟩
  | cx =>
    obtain ⟨c, q, rfl⟩ := List.length_eq_two.mp hq
    exact ⟨_, _, rfl, rfl, congrFun (Engine.Gate.action_cnot (by simpa using hn))⟩
  | cy =>
    obtain ⟨c, q, rfl⟩ := List.length_eq_two.mp hq
    exact ⟨_, _, rfl, rfl, action_cy (by simpa using hn)⟩
  | cz =>
    obtain ⟨c, q, rfl⟩ := List.length_eq_two.mp hq
    exact ⟨_, _, rfl, rfl, congrFun (Engine.Gate.action_cz (by simpa using hn))⟩
  | swap =>
    obtain ⟨a, b, rfl⟩ := List.length_eq_two.mp hq
    exact ⟨_, _, rfl, rfl, congrFun (Engine.Gate.action_swap (by simpa using hn))⟩
  | ccx =>
    obtain ⟨c, d, q, rfl⟩ := List.length_eq_three.mp hq
    exact ⟨_, _, rfl, rfl, congrFun (Engine.Gate.action_toffoli hn)⟩
  | cswap =>
    obtain ⟨c, a, b, rfl⟩ := List.length_eq_three.mp hq
    exact ⟨_, _, rfl, rfl, congrFun (Engine.Gate.action_fredkin hn)⟩
  | ch | crz | cp | iswap | zzPhase => exact absurd hs (by decide)

/-- Every supported gate has an image on the right numbers of operands and angles. -/
theorem StandardGate.exists_image {α : Type} [Scalar α] {op : StandardGate}
    (hs : op.isSupported = true) {indices : List ℕ} (hq : indices.length = op.numQubits)
    {angles : List α} (ha : angles.length = op.numParams) :
    ∃ gates, op.image indices angles = some gates := by
  cases op with
  | x | y | z | h | s | sdg | t | tdg | sx | sxdg =>
    obtain ⟨q, rfl⟩ := List.length_eq_one_iff.mp hq
    exact ⟨_, rfl⟩
  | rx | ry | rz | u1 =>
    obtain ⟨q, rfl⟩ := List.length_eq_one_iff.mp hq
    obtain ⟨a, rfl⟩ := List.length_eq_one_iff.mp ha
    exact ⟨_, rfl⟩
  | u2 =>
    obtain ⟨q, rfl⟩ := List.length_eq_one_iff.mp hq
    obtain ⟨a, b, rfl⟩ := List.length_eq_two.mp ha
    exact ⟨_, rfl⟩
  | u3 =>
    obtain ⟨q, rfl⟩ := List.length_eq_one_iff.mp hq
    obtain ⟨a, b, c, rfl⟩ := List.length_eq_three.mp ha
    exact ⟨_, rfl⟩
  | cx | cy | cz | swap =>
    obtain ⟨p, q, rfl⟩ := List.length_eq_two.mp hq
    exact ⟨_, rfl⟩
  | ccx | cswap =>
    obtain ⟨p, q, r, rfl⟩ := List.length_eq_three.mp hq
    exact ⟨_, rfl⟩
  | ch | crz | cp | iswap | zzPhase => exact absurd hs (by decide)

theorem StandardGate.qubits_of_image {α : Type} [Scalar α] {op : StandardGate} {indices : List ℕ}
    {angles : List α} {gates : List (Engine.Gate α)} (h : op.image indices angles = some gates)
    (hn : indices.Nodup) : ∀ g ∈ gates, g.qubits.Nodup ∧ g.qubits ⊆ indices := by
  unfold image at h
  split at h <;> cases h <;> simp_all [Engine.Gate.qubits]

end KetSim

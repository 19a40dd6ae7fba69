import Mathlib
import KetSim.Circuit.Basic
import KetSim.Proofs.Exact
import KetSim.Proofs.Ket

/-! # The meaning of a circuit

Every gate has a documented unitary, with angles in half turns; a rotation about a
Pauli matrix is the exponential of the matrix. A circuit turns the ket of all bits
clear into another one, instruction by instruction.
-/
namespace KetSim

/-! ## Unitaries -/

abbrev OneQubit := Matrix (Fin 2) (Fin 2) ℂ

namespace OneQubit

def pauliX : OneQubit := !![0, 1; 1, 0]

def pauliY : OneQubit := !![0, -Complex.I; Complex.I, 0]

def pauliZ : OneQubit := !![1, 0; 0, -1]

noncomputable def phase (halfTurns : ℝ) : ℂ := Complex.exp (Complex.I * Real.pi * halfTurns)

/-- The rotation `exp(-i·(aπ/2)·P)`. -/
noncomputable def rotation (P : OneQubit) (a : ℝ) : OneQubit :=
  NormedSpace.exp ((-Complex.I * a * Real.pi / 2) • P)

noncomputable def u3 (theta phi lam : ℝ) : OneQubit :=
  !![Complex.cos (theta * Real.pi / 2), -phase lam * Complex.sin (theta * Real.pi / 2);
    phase phi * Complex.sin (theta * Real.pi / 2),
    phase (phi + lam) * Complex.cos (theta * Real.pi / 2)]

end OneQubit

open OneQubit in
/-- The unitary of a gate on one qubit, with angles in half turns. -/
noncomputable def StandardGate.unitary? : StandardGate → List ℝ → Option OneQubit
  | x, [] => some pauliX
  | y, [] => some pauliY
  | z, [] => some pauliZ
  | h, [] => some ((1 / √2 : ℂ) • !![1, 1; 1, -1])
  | s, [] => some !![1, 0; 0, Complex.I]
  | sdg, [] => some !![1, 0; 0, -Complex.I]
  | t, [] => some !![1, 0; 0, phase (1 / 4)]
  | tdg, [] => some !![1, 0; 0, phase (-(1 / 4))]
  | sx, [] => some ((1 / 2 : ℂ) •
      !![1 + Complex.I, 1 - Complex.I; 1 - Complex.I, 1 + Complex.I])
  | sxdg, [] => some ((1 / 2 : ℂ) •
      !![1 - Complex.I, 1 + Complex.I; 1 + Complex.I, 1 - Complex.I])
  | rx, [a] => some (rotation pauliX a)
  | ry, [a] => some (rotation pauliY a)
  | rz, [a] => some (rotation pauliZ a)
  | u1, [lam] => some !![1, 0; 0, phase lam]
  | u2, [phi, lam] => some ((1 / √2 : ℂ) • !![1, -phase lam; phase phi, phase (phi + lam)])
  | u3, [theta, phi, lam] => some (OneQubit.u3 theta phi lam)
  | _, _ => none

/-! ## Operators -/

/-- The operator of a gate on its operands, controls first. -/
noncomputable def StandardGate.operator? {ι : Type} [DecidableEq ι] (g : StandardGate)
    (angles : List ℝ) (names : List ι) : Option (Ket ι → Ket ι) :=
  match g, names with
  | cx, [c, q] => some (Ket.controlled [c] (Ket.onQubit OneQubit.pauliX q))
  | cy, [c, q] => some (Ket.controlled [c] (Ket.onQubit OneQubit.pauliY q))
  | cz, [c, q] => some (Ket.controlled [c] (Ket.onQubit OneQubit.pauliZ q))
  | swap, [a, b] => some (Ket.exchange a b)
  | ccx, [c, d, q] => some (Ket.controlled [c, d] (Ket.onQubit OneQubit.pauliX q))
  | cswap, [c, a, b] => some (Ket.controlled [c] (Ket.exchange a b))
  | g, [q] => (g.unitary? angles).map fun U => Ket.onQubit U q
  | _, _ => none

theorem StandardGate.operator?_singleton {ι : Type} [DecidableEq ι] (op : StandardGate)
    (angles : List ℝ) (q : ι) :
    op.operator? angles [q] = (op.unitary? angles).map fun U => Ket.onQubit U q := by
  cases op <;> rfl

/-- The operator of an instruction: measurements and barriers leave a ket alone, a reset has no
operator. -/
noncomputable def Instruction.operator? (i : Instruction ℝ) :
    Option (Ket QubitId → Ket QubitId) :=
  match i.kind with
  | .gate g => do
    let op ← g.kind.standard?
    let angles ← g.params.mapM Angle.halfTurns
    op.operator? angles i.qubits
  | .measure | .barrier => some id
  | .reset => none

namespace Circuit

noncomputable def evolve? : List (Instruction ℝ) → Ket QubitId → Option (Ket QubitId)
  | [], ψ => some ψ
  | i :: rest, ψ => do
    let f ← i.operator?
    evolve? rest (f ψ)

noncomputable def ket? (c : Circuit ℝ) : Option (Ket QubitId) :=
  (evolve? c.instructions Ket.zero).map fun ψ x => OneQubit.phase c.phase * ψ x

def order {α : Type} (c : Circuit α) : List QubitId := c.qregs.flatMap (·.qubits)

/-- The bits of a basis index: the qubit at a position of the register layout owns the bit of that
place, counted from the most significant one. -/
def bitsOf {α : Type} (c : Circuit α) (k : ℕ) (q : QubitId) : Bool :=
  q ∈ c.order && k.testBit (c.numQubits - 1 - c.order.idxOf q)

end Circuit

/-! ## Closed forms -/

namespace OneQubit

theorem exp_smul_of_mul_self {P : OneQubit} (hP : P * P = 1) (z : ℂ) :
    NormedSpace.exp (z • P) = Complex.cosh z • (1 : OneQubit) + Complex.sinh z • P := by
  have heven (k : ℕ) : P ^ (2 * k) = 1 := by rw [pow_mul, pow_two, hP, one_pow]
  have hodd (k : ℕ) : P ^ (2 * k + 1) = P := by rw [pow_succ, heven, one_mul]
  have hterm (k : ℕ) : ((k.factorial : ℂ)⁻¹) • (z • P) ^ k = (z ^ k / k.factorial) • P ^ k := by
    rw [smul_pow, smul_smul, div_eq_inv_mul]
  have hsum : HasSum (fun k : ℕ => ((k.factorial : ℂ)⁻¹) • (z • P) ^ k)
      (Complex.cosh z • (1 : OneQubit) + Complex.sinh z • P) := by
    apply HasSum.even_add_odd
    · simpa only [hterm, heven] using (Complex.hasSum_cosh z).smul_const (1 : OneQubit)
    · simpa only [hterm, hodd] using (Complex.hasSum_sinh z).smul_const P
  rw [NormedSpace.exp_eq_tsum ℂ]
  exact hsum.tsum_eq

theorem rotation_eq {P : OneQubit} (hP : P * P = 1) (a : ℝ) :
    rotation P a = Complex.cos (a * Real.pi / 2) • (1 : OneQubit) -
      (Complex.I * Complex.sin (a * Real.pi / 2)) • P := by
  have hangle : -Complex.I * a * Real.pi / 2 = -(a * Real.pi / 2 * Complex.I) := by ring
  rw [rotation, exp_smul_of_mul_self hP, hangle, Complex.cosh_neg, Complex.sinh_neg,
    Complex.cosh_mul_I, Complex.sinh_mul_I, neg_smul, sub_eq_add_neg, mul_comm Complex.I]

theorem pauliX_mul_self : pauliX * pauliX = 1 := by
  simp [pauliX, Matrix.one_fin_two]

theorem pauliY_mul_self : pauliY * pauliY = 1 := by
  simp [pauliY, Matrix.one_fin_two]

theorem pauliZ_mul_self : pauliZ * pauliZ = 1 := by
  simp [pauliZ, Matrix.one_fin_two]

theorem rotation_pauliX (a : ℝ) : rotation pauliX a =
    !![Complex.cos (a * Real.pi / 2), -Complex.I * Complex.sin (a * Real.pi / 2);
      -Complex.I * Complex.sin (a * Real.pi / 2), Complex.cos (a * Real.pi / 2)] := by
  rw [rotation_eq pauliX_mul_self]
  ext i j
  fin_cases i <;> fin_cases j <;> simp [pauliX]

theorem rotation_pauliY (a : ℝ) : rotation pauliY a =
    !![Complex.cos (a * Real.pi / 2), -Complex.sin (a * Real.pi / 2);
      Complex.sin (a * Real.pi / 2), Complex.cos (a * Real.pi / 2)] := by
  rw [rotation_eq pauliY_mul_self]
  ext i j
  fin_cases i <;> fin_cases j <;> simp [pauliY, mul_right_comm]

theorem rotation_pauliZ (a : ℝ) : rotation pauliZ a =
    !![Complex.exp (-(a * Real.pi / 2) * Complex.I), 0;
      0, Complex.exp (a * Real.pi / 2 * Complex.I)] := by
  rw [rotation_eq pauliZ_mul_self, Complex.exp_mul_I, Complex.exp_mul_I, Complex.cos_neg,
    Complex.sin_neg]
  ext i j
  fin_cases i <;> fin_cases j <;> simp [pauliZ, mul_comm, sub_eq_add_neg]

end OneQubit

end KetSim

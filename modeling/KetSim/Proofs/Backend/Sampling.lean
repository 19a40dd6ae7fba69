import KetSim.Proofs.Backend.Final
import KetSim.Proofs.Lowering.Readout

/-! # Sampling at the end

A run measures nothing on the way: its final state is sampled and every sample is
read as a row of classical bits. The rows come out as if every measurement was made
at its own place in the circuit.
-/
namespace KetSim

theorem OneQubit.normSq_phase (t : ℝ) : Complex.normSq (phase t) = 1 := by
  have hangle : Complex.I * Real.pi * t = ((Real.pi * t : ℝ) : ℂ) * Complex.I := by
    push_cast
    ring
  rw [phase, hangle, Complex.normSq_eq_norm_sq, Complex.norm_exp_ofReal_mul_I, one_pow]

variable [DecimalText ℝ]

theorem Circuit.WellFormed.chance?_of_compile {c : Circuit ℝ} (h : c.WellFormed) {k : Compiled ℝ}
    (hk : c.compile = .ok k) {ψ : Ket QubitId} (hψ : c.ket? = some ψ) (row : List ℕ) :
    c.chance? row = some (∑ x ∈ Finset.range (2 ^ c.numQubits) with k.readout.row x = row,
      Complex.normSq (ψ (x.testBit ∘ c.place))) := by
  obtain ⟨haccepts, hreadout⟩ := (Readout.ofCircuit_eq_ok h).mp (compile_eq_ok.mp hk).2.2
  obtain ⟨φ, hφ, rfl⟩ := Option.map_eq_some_iff.mp hψ
  rw [chance?_of_accepts haccepts hφ, Ket.weight, Finset.sum_filter, ← h.sum_testBit_place fun y =>
    Complex.normSq (Ket.keep _ φ y)]
  congr 1
  apply Finset.sum_congr rfl
  intro x _
  rw [hreadout, Readout.row_scan, Ket.keep, Complex.normSq_mul, OneQubit.normSq_phase, one_mul,
    apply_ite Complex.normSq, map_zero]
  simp only [beq_iff_eq]

/-- Sampling at the end is measuring in place: for every circuit that compiles, and wherever its
state can be held, the probability of the basis indices that the readout spells as a row is the
probability that the circuit, measured instruction by instruction, ends with the row. -/
theorem sampling_eq_measuring {s : Settings} {c : Circuit ℝ} (hc : c.Built) {k : Compiled ℝ}
    (hk : c.compile = .ok k) {start : Engine.State ℝ}
    (ha : Execution.allocate s c.numQubits = .ok start) :
    ∃ state, Execution.finalState s k c.phase = .ok state ∧
      state.probabilities.length = 2 ^ c.numQubits ∧
      ∀ row, c.chance? row = some (∑ x ∈ Finset.range (2 ^ c.numQubits) with k.readout.row x = row,
        state.probabilities.getD x 0) := by
  obtain ⟨state, ψ, hstate, hψ, hlength, hprobability⟩ :=
    Execution.finalState_probabilities hc.wellFormed hk ha
  refine ⟨state, hstate, hlength, ?_⟩
  intro row
  rw [hc.wellFormed.chance?_of_compile hk hψ]
  congr 1
  apply Finset.sum_congr rfl
  intro x hx
  rw [hprobability x (Finset.mem_range.mp (Finset.mem_filter.mp hx).1)]

omit [DecimalText ℝ] in
/-- A Hadamard gate and two measurements of its qubit into one bit. -/
theorem sampling_eq_measuring_hadamard :
    let _ : DecimalText ℝ := DecimalText.whole
    ∃ (c : Circuit ℝ) (k : Compiled ℝ) (start state : Engine.State ℝ),
      c.instructions = [.ofGate (.fixed .h) [⟨0⟩], .measure ⟨0⟩ ⟨0⟩, .measure ⟨0⟩ ⟨0⟩] ∧
      c.Built ∧ c.compile = .ok k ∧ Execution.allocate {} c.numQubits = .ok start ∧
      Execution.finalState {} k c.phase = .ok state ∧ state.probabilities.length = 2 ∧
      c.chance? [1] = some (∑ x ∈ Finset.range 2 with k.readout.row x = [1],
        state.probabilities.getD x 0) := by
  let _ : DecimalText ℝ := DecimalText.whole
  have happend : (Circuit.withSize "one" 1 1 : Circuit ℝ).appendAll
      [.ofGate (.fixed .h) [⟨0⟩], .measure ⟨0⟩ ⟨0⟩, .measure ⟨0⟩ ⟨0⟩] = .ok _ := rfl
  have hbuilt := (Circuit.Built.withSize "one" 1 1).appendAll happend
  obtain ⟨state, hstate, hlength, hchance⟩ := sampling_eq_measuring (s := {}) hbuilt rfl rfl
  exact ⟨_, _, _, state, rfl, hbuilt, rfl, rfl, hstate, hlength, hchance [1]⟩

end KetSim

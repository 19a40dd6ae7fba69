import Mathlib
import KetSim.Backend.Execution
import KetSim.Proofs.Engine.Density
import KetSim.Proofs.Lowering.Meaning

/-! # Final states

A compiled circuit runs to its end on every state of its size. From the state of
all qubits zero a state vector then shows the ket of the circuit, and a density
matrix is the outer product of that vector with itself.
-/
namespace KetSim

/-! ## Compiled circuits -/

variable [DecimalText ℝ]

/-- The gates of a compiled circuit fit its register and turn the ket of all bits clear into that of
the circuit. -/
theorem Circuit.WellFormed.ket_of_compile {c : Circuit ℝ} (h : c.WellFormed) {k : Compiled ℝ}
    (hk : c.compile = .ok k) :
    k.program.numQubits = c.numQubits ∧ (∀ g ∈ k.program.gates, g.Fits c.numQubits) ∧
      ∃ ψ, Circuit.evolve? c.instructions Ket.zero = some ψ ∧
        k.program.gates.foldl (fun φ g => g.action φ) Ket.zero = Ket.relabel c.place ψ := by
  obtain ⟨images, himages, hfits, hp⟩ := Circuit.lower_eq_ok.mp (Circuit.compile_eq_ok.mp hk).1
  obtain ⟨ψ, hψ, hfold⟩ := h.evolve?_of_forall₂ h.instructions himages Ket.zero
  rw [Ket.relabel_zero h.place_surjective] at hfold
  rw [hp]
  exact ⟨rfl, hfits, ψ, hψ, hfold⟩

namespace Execution

omit [DecimalText ℝ]

theorem evolve_eq_ok {α : Type} [Scalar α] {p : Engine.Program α} {start state : Engine.State α} :
    evolve p start = .ok state ↔ p.run start = (state, none) := by
  unfold evolve
  rcases p.run start with ⟨s, _ | e⟩ <;> simp

theorem finalState_eq_ok {α : Type} [Scalar α] {s : Settings} {k : Compiled α} {phase : α}
    {state : Engine.State α} :
    finalState s k phase = .ok state ↔
      ∃ start final, allocate s k.program.numQubits = .ok start ∧
        k.program.run start = (final, none) ∧ turn phase final = state := by
  simp only [finalState, bind_eq_ok, evolve_eq_ok, Except.ok.injEq]
  constructor
  · rintro ⟨start, hstart, final, hrun, hturn⟩
    exact ⟨start, final, hstart, hrun, hturn⟩
  · rintro ⟨start, final, hstart, hrun, hturn⟩
    exact ⟨start, hstart, final, hrun, hturn⟩

theorem allocate_vector {α : Type} [Scalar α] {s : Settings}
    (hs : s.representation = .stateVector) {n : ℕ} {start : Engine.State α} :
    allocate s n = .ok start ↔
      ∃ v, Engine.StateVector.zero n s.engineOptions = .ok v ∧ .vector v = start := by
  simp only [allocate, hs, failed, mapError_eq_ok, map_eq_ok]

theorem allocate_density {α : Type} [Scalar α] {s : Settings}
    (hs : s.representation = .densityMatrix) {n : ℕ} {start : Engine.State α} :
    allocate s n = .ok start ↔
      ∃ d, Engine.DensityMatrix.zero n s.engineOptions = .ok d ∧ .density d = start := by
  simp only [allocate, hs, failed, mapError_eq_ok, map_eq_ok]

theorem turn_shows {n : ℕ} {v : Engine.StateVector ℝ} {φ : Ket ℕ}
    (h : Engine.Shows n v.amplitudes φ) (phase : ℝ) :
    ∃ w, turn phase (.vector v) = .vector w ∧ w.numQubits = v.numQubits ∧
      Engine.Shows n w.amplitudes fun y => OneQubit.phase phase * φ y := by
  by_cases hz : phase = 0
  · refine ⟨v, by simp [turn, hz], rfl, ?_⟩
    simpa [OneQubit.phase, hz] using h
  · refine ⟨v.multiply (Cplx.cis (Scalar.halfTurn phase)), by simp [turn, hz], rfl, ?_⟩
    have hm := Engine.shows_multiply h (Cplx.cis (Scalar.halfTurn phase))
    rw [Cplx.toComplex_cis, Engine.Gate.exp_halfTurn] at hm
    simpa only [mul_comm] using hm

/-- On a state vector the final state of a compiled circuit shows the ket of the circuit with its
phase, on the engine indices. -/
theorem finalState_vector [DecimalText ℝ] {s : Settings} (hr : s.representation = .stateVector)
    {c : Circuit ℝ} (h : c.WellFormed) {k : Compiled ℝ}
    (hk : c.compile = .ok k) {start : Engine.StateVector ℝ}
    (ha : Engine.StateVector.zero c.numQubits s.engineOptions = .ok start) :
    ∃ v ψ, finalState s k c.phase = .ok (.vector v) ∧ v.numQubits = c.numQubits ∧
      c.ket? = some ψ ∧ Engine.Shows c.numQubits v.amplitudes (Ket.relabel c.place ψ) := by
  obtain ⟨hn, hfits, ψ, hψ, hfold⟩ := h.ket_of_compile hk
  obtain ⟨hsn, -, hshows⟩ := Engine.StateVector.zero_eq_ok ha
  rw [← hsn] at hshows hfits
  obtain ⟨v, hrun, hvn, hv⟩ := Engine.StateVector.applyGates_shows hshows hfits
  rw [hfold] at hv
  obtain ⟨w, hturn, hwn, hw⟩ := turn_shows hv c.phase
  refine ⟨w, fun x => OneQubit.phase c.phase * ψ x, ?_, hwn.trans (hvn.trans hsn), ?_, hsn ▸ hw⟩
  · refine finalState_eq_ok.mpr ⟨.vector start, .vector v, ?_, ?_, hturn⟩
    · rw [hn]
      exact (allocate_vector hr).mpr ⟨start, ha, rfl⟩
    · rw [Engine.Program.run_eq_applyGates (s := .vector start) (hsn.trans hn.symm)]
      exact hrun
  · rw [Circuit.ket?, hψ]
    rfl

/-- The density matrix of a run is the outer product of the state vector of the same run, whose
phase does not show. -/
theorem finalState_isOuter {s s' : Settings} (hr : s.representation = .densityMatrix)
    (hr' : s'.representation = .stateVector) {k : Compiled ℝ} {phase : ℝ}
    {state state' : Engine.State ℝ}
    (h : finalState s k phase = .ok state) (h' : finalState s' k phase = .ok state') :
    ∃ d v, state = .density d ∧ state' = .vector v ∧ Engine.IsOuter d v ∧ v.numQubits < 30 := by
  obtain ⟨start, final, ha, hrun, rfl⟩ := finalState_eq_ok.mp h
  obtain ⟨start', final', ha', hrun', rfl⟩ := finalState_eq_ok.mp h'
  obtain ⟨d, hd, rfl⟩ := (allocate_density hr).mp ha
  obtain ⟨v, hv, rfl⟩ := (allocate_vector hr').mp ha'
  obtain ⟨hdn, hlt, -⟩ := Engine.DensityMatrix.zero_eq_ok hd
  obtain ⟨hvn, -, -⟩ := Engine.StateVector.zero_eq_ok hv
  obtain ⟨d', v', e, hd', hv', houter⟩ := (Engine.isOuter_zero hd hv).applyGates
    k.program.gates
  rw [Engine.Program.run_eq_applyGates (s := .density d) hdn, hd'] at hrun
  rw [Engine.Program.run_eq_applyGates (s := .vector v) hvn, hv'] at hrun'
  obtain ⟨rfl, rfl⟩ := Prod.mk.inj hrun
  obtain ⟨rfl, -⟩ := Prod.mk.inj hrun'
  have hn : v'.numQubits < 30 := by
    have hsame := Engine.Program.applyGates_numQubits k.program.gates (.vector v)
    rw [hv'] at hsame
    simp only [Engine.State.numQubits] at hsame
    omega
  by_cases hz : phase = 0
  · exact ⟨d', v', rfl, by simp [turn, hz], houter, hn⟩
  · exact ⟨d', _, rfl, by simp [turn, hz]; rfl, houter.multiply _, hn⟩

/-- With either representation a compiled circuit runs to its end, and the probability of an
engine index is that of its bits under the ket of the circuit. -/
theorem finalState_probabilities [DecimalText ℝ] {s : Settings} {c : Circuit ℝ}
    (h : c.WellFormed) {k : Compiled ℝ} (hk : c.compile = .ok k) {start : Engine.State ℝ}
    (ha : allocate s c.numQubits = .ok start) :
    ∃ state ψ, finalState s k c.phase = .ok state ∧ c.ket? = some ψ ∧
      state.probabilities.length = 2 ^ c.numQubits ∧
      ∀ x < 2 ^ c.numQubits,
        state.probabilities.getD x 0 = Complex.normSq (ψ (x.testBit ∘ c.place)) := by
  cases hr : s.representation with
  | stateVector =>
    obtain ⟨start, hstart, -⟩ := (allocate_vector hr).mp ha
    obtain ⟨v, ψ, hstate, -, hψ, hv⟩ := finalState_vector hr h hk hstart
    exact ⟨.vector v, ψ, hstate, hψ, Engine.StateVector.probabilities_of_shows hv⟩
  | densityMatrix =>
    obtain ⟨start, hstart, hstart'⟩ := (allocate_density hr).mp ha
    obtain ⟨zero, hzero⟩ : ∃ v : Engine.StateVector ℝ,
        Engine.StateVector.zero c.numQubits s.engineOptions = .ok v :=
      Engine.exists_vector_zero hstart
    obtain ⟨v, ψ, hvector, hn, hψ, hv⟩ :=
      finalState_vector (s := { s with representation := .stateVector }) rfl h hk hzero
    obtain ⟨hkn, hfits, -⟩ := h.ket_of_compile hk
    obtain ⟨hzn, -, -⟩ := Engine.StateVector.zero_eq_ok hzero
    obtain ⟨hdn, hlt, -⟩ := Engine.DensityMatrix.zero_eq_ok hstart
    rw [← hzn] at hfits
    obtain ⟨d, -, hrun, -, -⟩ := (Engine.isOuter_zero hstart hzero).applyGates_of_fits hfits
    have hstate : finalState s k c.phase = .ok (.density d) := by
      refine finalState_eq_ok.mpr ⟨_, .density d, by rw [hkn]; exact ha, ?_, rfl⟩
      rw [← hstart',
        Engine.Program.run_eq_applyGates (s := .density start) (hdn.trans hkn.symm)]
      exact hrun
    obtain ⟨d', v', hd, hv', houter, -⟩ := finalState_isOuter hr (by rfl) hstate hvector
    obtain rfl := Engine.State.density.inj hd
    obtain rfl := Engine.State.vector.inj hv'
    refine ⟨.density d, ψ, hstate, hψ, ?_⟩
    rw [Engine.State.probabilities, houter.probabilities_eq (by omega)]
    exact Engine.StateVector.probabilities_of_shows hv

end Execution

end KetSim

import KetSim.Proofs.Backend.History

/-! # Global phases

Two circuits that differ in their global phase compile to the same program. Their
final state vectors differ by a factor of modulus one, their final density matrices
do not differ. The factor cancels in probabilities and in expectation values, so
nothing but a returned state vector shows it.
-/
namespace KetSim

/-! ## Turned states -/

namespace Engine

/-- A number of modulus one that stands for `t` half turns. -/
noncomputable def turnFactor (t : ℝ) : Cplx ℝ := Cplx.cis (Scalar.halfTurn t)

theorem toComplex_turnFactor (t : ℝ) :
    (turnFactor t).toComplex = Complex.exp (Complex.I * Real.pi * t) := by
  rw [turnFactor, Cplx.toComplex_cis, Gate.exp_halfTurn, OneQubit.phase]

theorem mul_turnFactor_zero (a : Cplx ℝ) : a * turnFactor 0 = a := by
  apply Cplx.toComplex_injective
  simp [toComplex_turnFactor]

theorem mul_turnFactor_mul (a : Cplx ℝ) (t u : ℝ) :
    a * turnFactor t * turnFactor u = a * turnFactor (t + u) := by
  apply Cplx.toComplex_injective
  simp only [Cplx.toComplex_mul, toComplex_turnFactor, mul_assoc, ← Complex.exp_add]
  push_cast
  ring_nf

namespace StateVector

variable (s : StateVector ℝ) (t : ℝ)

theorem amplitude_multiply (factor : Cplx ℝ) (i : ℕ) :
    (s.multiply factor).amplitude i = s.amplitude i * factor := by
  have hzero : (0 : Cplx ℝ) * factor = 0 := Cplx.toComplex_injective (by simp)
  simp only [amplitude, multiply_eq, Array.getD_eq_getD_getElem?, Array.getElem?_map]
  cases s.amplitudes[i]? with
  | none => exact hzero.symm
  | some a => rfl

theorem probabilities_multiply :
    (s.multiply (turnFactor t)).probabilities = s.probabilities := by
  simp only [probabilities_eq, multiply_eq, Array.toList_map, List.map_map]
  apply List.map_congr_left
  intro a _
  rw [Function.comp_apply, Cplx.normSq_eq, Cplx.toComplex_mul, map_mul, ← Cplx.normSq_eq,
    ← Cplx.normSq_eq, turnFactor, Cplx.normSq_cis, mul_one]

/-- The factor meets its conjugate in every summand. -/
theorem pauliValue_multiply (m : Masks) :
    (s.multiply (turnFactor t)).pauliValue m = s.pauliValue m := by
  rw [pauliValue_real, pauliValue_real, pauliTerms, pauliTerms]
  congr 1
  have hlist : (s.multiply (turnFactor t)).amplitudes.toList.zipIdx =
      s.amplitudes.toList.zipIdx.map fun (a, i) => (a * turnFactor t, i) := by
    simp [multiply_eq, List.zipIdx_map]
  rw [hlist, List.map_map]
  apply List.map_congr_left
  rintro ⟨a, i⟩ _
  apply Cplx.toComplex_injective
  simp only [Function.comp_apply, amplitude_multiply, Cplx.toComplex_mul, Cplx.toComplex_conj,
    map_mul]
  have hone := Cplx.conj_cis_mul (Scalar.halfTurn t)
  rw [← turnFactor] at hone
  linear_combination starRingEnd ℂ (s.amplitude (i ^^^ m.flip)).toComplex *
    (m.phase i : Cplx ℝ).toComplex * a.toComplex * hone

theorem expectation_multiply (o : Observable ℝ) :
    (s.multiply (turnFactor t)).expectation o = s.expectation o := by
  have hvalue : (s.multiply (turnFactor t)).pauliValue = s.pauliValue :=
    funext (pauliValue_multiply s t)
  rw [expectation, expectation, hvalue]
  rfl

end StateVector

namespace State

/-- A state vector turned by `t` half turns; a density matrix as it is. -/
noncomputable def turned (t : ℝ) : State ℝ → State ℝ
  | vector s => vector (s.multiply (turnFactor t))
  | density d => density d

theorem probabilities_turned (t : ℝ) (s : State ℝ) :
    (s.turned t).probabilities = s.probabilities := by
  cases s with
  | vector s => exact s.probabilities_multiply t
  | density d => rfl

theorem expectation_turned (t : ℝ) (s : State ℝ) (o : Observable ℝ) :
    (s.turned t).expectation o = s.expectation o := by
  cases s with
  | vector s => exact s.expectation_multiply t o
  | density d => rfl

theorem turned_zero (s : State ℝ) : s.turned 0 = s := by
  cases s with
  | vector s =>
    simp only [turned, StateVector.multiply_eq, mul_turnFactor_zero]
    rw [Array.map_id']
  | density d => rfl

theorem turned_turned (t u : ℝ) (s : State ℝ) : (s.turned t).turned u = s.turned (t + u) := by
  cases s with
  | vector s =>
    simp only [turned, StateVector.multiply_eq, Array.map_map, Function.comp_def,
      mul_turnFactor_mul]
  | density d => rfl

end State

end Engine

/-! ## Executions -/

/-- Result data with the amplitudes of a state vector turned by `t` half turns, and with nothing
else changed. -/
noncomputable def ResultData.turned (t : ℝ) : ResultData ℝ → ResultData ℝ
  | .stateVector amplitudes => .stateVector (amplitudes.map (· * Engine.turnFactor t))
  | .densityMatrix elements => .densityMatrix elements
  | .shots table => .shots table
  | .expectation value => .expectation value

noncomputable def ExecutionResult.turned (t : ℝ) (r : ExecutionResult ℝ) : ExecutionResult ℝ :=
  { r with data := r.data.turned t }

namespace Execution

/-- The test for a phase of zero leaves out a factor of one. -/
theorem turn_eq_turned (phase : ℝ) (state : Engine.State ℝ) :
    turn phase state = state.turned phase := by
  cases state with
  | vector v =>
    by_cases hz : phase = 0
    · rw [hz, Engine.State.turned_zero]
      simp [turn]
    · simp [turn, hz, Engine.State.turned, Engine.turnFactor]
  | density d => rfl

theorem finalState_phase (s : Settings) (k : Compiled ℝ) (p p' : ℝ) :
    finalState s k p' = (finalState s k p).map (Engine.State.turned (p' - p)) := by
  simp only [finalState, turn_eq_turned]
  cases ha : allocate (α := ℝ) s k.program.numQubits with
  | error e => rfl
  | ok start =>
    cases he : evolve k.program start with
    | error e => simp [he, bind, Except.bind, Except.map]
    | ok state =>
      simp [he, bind, Except.bind, Except.map, Engine.State.turned_turned]

theorem observe_turned (s : Settings) (entropy : UInt64) (k : Compiled ℝ) (mode : RunMode ℝ)
    (t : ℝ) (state : Engine.State ℝ) :
    observe s entropy k mode (state.turned t) =
      (observe s entropy k mode state).map fun r => (r.1.turned t, r.2) := by
  cases mode with
  | state =>
    cases state with
    | vector v =>
      simp [observe, stateData, Engine.State.turned, Engine.StateVector.multiply_eq, Except.map,
        ResultData.turned]
    | density d => rfl
  | shots count own =>
    have hsample (seed : UInt64) :
        (state.turned t).sample count seed = state.sample count seed := by
      rw [Engine.State.sample, Engine.State.probabilities_turned, Engine.State.sample]
    simp only [observe, shotTable, hsample]
    rfl
  | expectation op =>
    have hvalue : expectation s k op (state.turned t) = expectation s k op state := by
      simp only [expectation, Engine.State.expectation_turned]
    simp only [observe, hvalue]
    cases expectation s k op state <;> rfl

theorem execute_phase (s : Settings) (entropy : UInt64) (k : Compiled ℝ) (mode : RunMode ℝ)
    (p p' : ℝ) :
    execute s entropy k p' mode =
      (execute s entropy k p mode).map fun r => (r.1.turned (p' - p), r.2) := by
  simp only [execute, finalState_phase s k p p']
  cases finalState s k p with
  | error e => rfl
  | ok state => exact observe_turned s entropy k mode (p' - p) state

end Execution

/-! ## Requests -/

namespace Backend

variable [DecimalText ℝ]

/-- A phase is not compiled. -/
theorem compiled_phase (b : Backend ℝ) (c : Circuit ℝ) (p : ℝ) :
    b.compiled { c with phase := p } = b.compiled c := rfl

theorem answer_phase (b : Backend ℝ) (entropy : UInt64) (c : Circuit ℝ) (mode : RunMode ℝ)
    (p : ℝ) :
    b.answer entropy { c with phase := p } mode =
      (b.answer entropy c mode).map fun r => (r.1.turned (p - c.phase), r.2) := by
  simp only [answer, compiled_phase]
  cases b.compiled c with
  | error e => rfl
  | ok k =>
    cases b.checkShots mode with
    | error e => rfl
    | ok u => exact Execution.execute_phase b.settings entropy k mode c.phase p

/-- Of two circuits that differ in their phase only, backends of one configuration return the same
outcome, errors included, whatever they have served before and in every mode whose seed is
determined; only the amplitudes of a state vector are multiplied by the number of modulus one that
stands for the difference of the phases. -/
theorem phase_shows_in_amplitudes_only {b b' : Backend ℝ} (hb : b.Reachable) (hb' : b'.Reachable)
    (hname : b'.name = b.name) (hsettings : b'.settings = b.settings) {mode : RunMode ℝ}
    (hseed : mode.Seeded b.settings) (o o' : Occasion) (c : Circuit ℝ) (p : ℝ) :
    (Engine.turnFactor (p - c.phase)).toComplex =
        Complex.exp (Complex.I * Real.pi * (p - c.phase : ℝ)) ∧
      (b'.process o' { c with phase := p } mode).2.map ExecutionResult.untimed =
        (b.process o c mode).2.map fun r => (r.turned (p - c.phase)).untimed := by
  refine ⟨Engine.toComplex_turnFactor _, ?_⟩
  have h := hb.sound
  have h' := hb'.sound
  have hkeeps : Keeps b b' :=
    ⟨hname, hsettings, by rw [h'.capabilities, h.capabilities, hsettings, hname]⟩
  rw [h'.process_snd, h.process_snd, hkeeps.answer_eq, hname,
    b.answer_congr_seed (hseed.seedWith_eq o'.entropy o.entropy), answer_phase]
  cases b.answer o.entropy c mode <;> rfl

omit [DecimalText ℝ] in
/-- A qubit without gates, and then the same with a quarter turn, on a backend that has kept the
first. -/
theorem phase_shows_in_amplitudes_only_quarter :
    let _ : DecimalText ℝ := DecimalText.whole
    let o : Occasion := ⟨0, 0, 0, ⟨"job"⟩, ⟨2024, 1, 1, 0, 0, 0, 0⟩⟩
    let c : Circuit ℝ := Circuit.withSize "one" 1 0
    let b : Backend ℝ := build "qulacs" {}
    let b' : Backend ℝ := (b.process o c .state).1
    b.Reachable ∧ b'.Reachable ∧ b'.name = b.name ∧ b'.settings = b.settings ∧
      RunMode.Seeded b.settings (.shots 10 (some 7) : RunMode ℝ) ∧
      (b'.process o { c with phase := 1 / 2 } .state).2.map ExecutionResult.untimed =
        (b.process o c .state).2.map (fun r => (r.turned (1 / 2 - c.phase)).untimed) ∧
      (b'.process o { c with phase := 1 / 2 } (.shots 10 (some 7))).2.map
          ExecutionResult.untimed =
        (b.process o c (.shots 10 (some 7))).2.map fun r =>
          (r.turned (1 / 2 - c.phase)).untimed := by
  intro _ o c b b'
  have hb : b.Reachable := .build _ _
  have hkeeps : Keeps b b' := (hb.sound.process_fst o c .state).1
  have hb' : b'.Reachable := hb.process o c .state
  have hseed : RunMode.Seeded b.settings (.shots 10 (some 7) : RunMode ℝ) := rfl
  have hstate := phase_shows_in_amplitudes_only hb hb' hkeeps.name hkeeps.settings
    (show RunMode.Seeded b.settings (.state : RunMode ℝ) from trivial) o o c (1 / 2)
  have hshots := phase_shows_in_amplitudes_only hb hb' hkeeps.name hkeeps.settings hseed o o c
    (1 / 2)
  exact ⟨hb, hb', hkeeps.name, hkeeps.settings, hseed, hstate.2, hshots.2⟩

end Backend

end KetSim

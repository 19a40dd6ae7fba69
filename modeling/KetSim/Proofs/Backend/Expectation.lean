import KetSim.Proofs.Backend.Runs
import KetSim.Proofs.Engine.Parallel
import KetSim.Proofs.Engine.PauliProduct

/-! # Expectation values

The value of an observable is the weighted sum over its products: in a state, of the
inner product with the image that the gates of the factors make in any order, and in
a density matrix, of the trace. Such values are real, so that no run stops at an
imaginary part.
-/
namespace KetSim

open scoped Matrix

namespace Engine

/-! ## Images -/

/-- The gates of the factors of a product, in any order, multiply by its operator. -/
theorem StateVector.applyGates_gatesOf {s : StateVector ℝ} {n : ℕ} (hn : s.numQubits = n)
    (hs : s.amplitudes.size = 2 ^ n) {t : Term ℝ} (ht : Placed n t.ops) {ops : List (ℕ × Axis)}
    (hops : ops.Perm t.ops) :
    ∃ s', Program.applyGates (gatesOf ops) (.vector s) = (.vector s', none) ∧
      s'.column n = t.operator n *ᵥ s.column n := by
  subst hn
  have hplaced := ht.perm hops
  have hfits : ∀ g ∈ (gatesOf ops : List (Gate ℝ)), g.Fits s.numQubits := by
    intro g hg
    obtain ⟨op, hop, rfl⟩ := List.mem_map.mp hg
    exact op.2.fits_gate (hplaced.lt op hop)
  obtain ⟨ψ, hψ⟩ := exists_shows hs
  obtain ⟨s', hrun, -, hshows⟩ :=
    applyGates_shows (hψ.congr fun x hx => (tensorMul_one ψ hx).symm) hfits
  rw [foldl_gatesOf hplaced, factorAt_perm hops hplaced.nodup] at hshows
  refine ⟨s', hrun, funext fun x => ?_⟩
  rw [column, amplitude, hshows.entry x x.isLt, tensorMul, Finset.sum_range]
  apply Finset.sum_congr rfl
  intro c _
  rw [← hψ.entry c c.isLt]
  rfl

/-! ## Real values -/

/-- A vector with one amplitude for each index of its register, or a Hermitian matrix. -/
def State.Hermitian : State ℝ → Prop
  | vector s => s.amplitudes.size = 2 ^ s.numQubits
  | density d => (d.matrix d.numQubits).IsHermitian

theorem State.expectation_im {s : State ℝ} (hs : s.Hermitian) {m : ℕ} {o : Observable ℝ}
    (ho : o.Assembled m) {value : Cplx ℝ} (h : s.expectation o = .ok value) : value.im = 0 := by
  cases s with
  | vector s => exact StateVector.expectation_im hs ho h
  | density d =>
    exact DensityMatrix.expectation_im (fun r hr c hc => hs.apply ⟨c, hc⟩ ⟨r, hr⟩) ho h

/-! ## Means -/

/-- What an observable is worth on a register of `n` qubits: its products act as their gates do,
and its values are means of their operators. -/
structure Observable.Exact (o : Observable ℝ) (n : ℕ) : Prop where
  image : ∀ t ∈ o.terms, ∀ ops : List (ℕ × Axis), ops.Perm t.ops →
    ∀ s : StateVector ℝ, s.numQubits = n → s.amplitudes.size = 2 ^ n →
      ∃ s', Program.applyGates (gatesOf ops) (.vector s) = (.vector s', none) ∧
        s'.column n = t.operator n *ᵥ s.column n
  vector : ∀ s : StateVector ℝ, s.numQubits = n → s.amplitudes.size = 2 ^ n →
    ∃ value, s.expectation o = .ok value ∧ (∀ r, (State.vector s).Expects o r → r = .ok value) ∧
      value.toComplex = (o.terms.map fun t =>
        (t.coeff : ℂ) * (star (s.column n) ⬝ᵥ t.operator n *ᵥ s.column n)).sum ∧
      value.im = 0
  density : ∀ d : DensityMatrix ℝ, d.numQubits = n →
    ∃ value, d.expectation o = .ok value ∧
      value.toComplex =
        (o.terms.map fun t => (t.coeff : ℂ) * (d.matrix n * t.operator n).trace).sum ∧
      ((d.matrix n).IsHermitian → value.im = 0)

theorem Observable.Assembled.exact {m n : ℕ} {o : Observable ℝ} (ho : o.Assembled m)
    (hmn : m ≤ n) : o.Exact n := by
  have hplaced (t : Term ℝ) (ht : t ∈ o.terms) : Placed n t.ops := (ho.placed t ht).mono hmn
  have hle : o.numQubits ≤ n := ho.numQubits.trans_le hmn
  refine ⟨fun t ht ops hops s hn hs => ?image, fun s hn hs => ?vector, fun d hn => ?density⟩
  case image => exact StateVector.applyGates_gatesOf hn hs (hplaced t ht) hops
  case vector =>
    subst hn
    have hvalue := StateVector.expectation_eq_ok.mpr ⟨hle, rfl⟩
    exact ⟨_, hvalue, fun r hr => (State.expects_iff.mp hr).trans hvalue,
      toComplex_weightedSum fun t ht => StateVector.pauliValue_eq rfl hs (hplaced t ht),
      State.expectation_im (s := .vector s) hs ho hvalue⟩
  case density =>
    subst hn
    have hvalue := DensityMatrix.expectation_eq_ok.mpr ⟨hle, rfl⟩
    exact ⟨_, hvalue,
      toComplex_weightedSum fun t ht => DensityMatrix.pauliValue_eq rfl (hplaced t ht),
      fun hd => State.expectation_im (s := .density d) hd ho hvalue⟩

end Engine

/-! ## Runs -/

/-- An outcome that is no refusal of an expectation value for its imaginary part. -/
def FreeOfResidue {α β : Type} (r : Except (BackendError α) β) : Prop :=
  ∀ activity imaginary tolerance,
    r ≠ .error (.execution activity (.imaginaryResidue imaginary tolerance))

namespace Execution

variable {s : Settings} {k : Compiled ℝ} {op : PauliOperator ℝ} {state : Engine.State ℝ}

/-- Only an imaginary part makes an expectation value be refused for it. -/
theorem freeOfResidue_expectation (h : ∀ o value, k.layout.observable op = .ok o →
      state.expectation o = .ok value → value.im = 0) :
    FreeOfResidue (expectation s k op state) := by
  intro activity imaginary tolerance he
  unfold expectation at he
  cases ho : k.layout.observable op with
  | error e =>
    simp only [ho, Except.mapError, bind, Except.bind, Except.error.injEq] at he
    cases e <;> cases he
  | ok o =>
    simp only [ho, Except.mapError, bind, Except.bind] at he
    cases hvalue : state.expectation o with
    | error e => simp [hvalue, failed, Except.mapError] at he
    | ok value =>
      simp [hvalue, failed, Except.mapError, realPart_of_im (h o value ho hvalue)] at he

theorem freeOfResidue_execute {entropy : UInt64} {phase : ℝ} {mode : RunMode ℝ}
    (h : ∀ g ∈ k.program.gates, g.Fits k.program.numQubits) :
    FreeOfResidue (execute s entropy k phase mode) := by
  intro activity imaginary tolerance he
  obtain hfailure | ⟨state, hstate, hobserve⟩ := execute_eq_error h he
  · cases hfailure
  · cases mode with
    | state => cases hobserve
    | shots count own => cases hobserve
    | expectation op =>
      cases hvalue : expectation s k op state with
      | ok value => simp [observe, hvalue, bind, Except.bind] at hobserve
      | error e =>
        simp only [observe, hvalue, bind, Except.bind, Except.error.injEq] at hobserve
        exact freeOfResidue_expectation (fun o value ho => im_expectation h hstate ho) activity
          imaginary tolerance (hobserve ▸ hvalue)

end Execution

namespace Backend

theorem checkShots_eq_error {α : Type} {b : Backend α} {mode : RunMode α} {e : BackendError α}
    (h : b.checkShots mode = .error e) : ∃ reason, e = .invalidShots reason := by
  unfold checkShots at h
  split at h
  · simp only at h
    split at h
    · exact ⟨_, (Except.error.inj h).symm⟩
    · cases h
  · cases h

theorem freeOfResidue_run [DecimalText ℝ] {b : Backend ℝ} {p : Prepared ℝ} (hp : p.Genuine b.name)
    (o : Occasion) (mode : RunMode ℝ) : FreeOfResidue (b.run o p mode) := by
  intro activity imaginary tolerance he
  obtain ⟨k, hk, hrun⟩ := run_of_genuine hp
  rw [hrun, map_eq_error] at he
  cases hshots : b.checkShots mode with
  | error e =>
    obtain ⟨reason, rfl⟩ := checkShots_eq_error hshots
    rw [hshots] at he
    cases he
  | ok u =>
    rw [hshots] at he
    exact Execution.freeOfResidue_execute (Circuit.fits_of_compile hk) activity imaginary tolerance
      he

end Backend

/-- In exact arithmetic the values of an assembled observable are the means of its products, and
real. Neither a state vector nor a Hermitian density matrix is refused for an imaginary part, nor is
any run of a prepared circuit. -/
theorem expectation_exact :
    (∀ {m n : ℕ} {o : Engine.Observable ℝ}, o.Assembled m → m ≤ n → o.Exact n) ∧
    (∀ {state : Engine.State ℝ}, state.Hermitian →
      ∀ (s : Settings) (k : Compiled ℝ) (op : PauliOperator ℝ),
        FreeOfResidue (Execution.expectation s k op state)) ∧
    ∀ [DecimalText ℝ] [BEq ℝ] {b b' : Backend ℝ} {c : Circuit ℝ} {ticket : ℕ} {p : Prepared ℝ},
      b.Reachable → b.Keeps b' → (b.prepare ticket c).2 = .ok p →
      ∀ (o : Occasion) (mode : RunMode ℝ), FreeOfResidue (b'.run o p mode) := by
  refine ⟨fun ho hmn => ho.exact hmn, fun hstate s k op => ?_, fun hb hkeeps hp =>
    Backend.freeOfResidue_run (hkeeps.name ▸ hb.sound.genuine_prepare hp)⟩
  exact Execution.freeOfResidue_expectation fun o value ho hvalue =>
    Engine.State.expectation_im hstate (QubitLayout.assembled_observable ho) hvalue

/-- The negated `Y` on one qubit. -/
def negatedY : Engine.Observable ℝ := ⟨1, [⟨-1, [(0, .y)]⟩]⟩

/-- A qubit along the axis of `Y`, not normalized. -/
noncomputable def sideways : Engine.StateVector ℝ := ⟨#[1, ⟨0, 1⟩], 1, {}⟩

/-- The outer product of that qubit. -/
noncomputable def sidewaysMatrix : Engine.DensityMatrix ℝ := ⟨#[1, ⟨0, 1⟩, ⟨0, -1⟩, 1], 1, {}⟩

theorem negatedY_assembled : negatedY.Assembled 1 := by
  have hadd : (Engine.Observable.empty 1).add (-1) [(0, .y)] = .ok negatedY := rfl
  exact .add .empty hadd

theorem sidewaysMatrix_hermitian : (sidewaysMatrix.matrix 1).IsHermitian := by
  ext r c
  fin_cases r <;> fin_cases c <;> apply Complex.ext <;>
    simp [Engine.DensityMatrix.matrix, Engine.DensityMatrix.get, Engine.DensityMatrix.place,
      sidewaysMatrix]

theorem expectation_sideways : sideways.expectation negatedY = .ok ⟨-2, 0⟩ := by
  have hzero : Engine.bitCount 0 = 0 := rfl
  have hone : Engine.bitCount 1 = 1 := rfl
  refine Engine.StateVector.expectation_eq_ok.mpr ⟨le_rfl, Cplx.toComplex_injective ?_⟩
  rw [Engine.toComplex_weightedSum fun t _ => Engine.StateVector.toComplex_pauliValue rfl t.masks]
  apply Complex.ext <;>
    norm_num [negatedY, sideways, Engine.Term.masks, Engine.Masks.add, Engine.Masks.toComplex_phase,
      Engine.StateVector.amplitude, hzero, hone, Finset.sum_range_succ]

/-- The negated `Y` is worth minus the squared norm in a qubit along its axis. -/
theorem expectation_exact_sideways :
    (negatedY.Assembled 1 ∧ 1 ≤ 1 ∧ negatedY.Exact 1 ∧
      sideways.expectation negatedY = .ok ⟨-2, 0⟩) ∧
    (Engine.State.Hermitian (.vector sideways) ∧ Engine.State.Hermitian (.density sidewaysMatrix) ∧
      ∀ (s : Settings) (k : Compiled ℝ) (op : PauliOperator ℝ),
        FreeOfResidue (Execution.expectation s k op (.vector sideways)) ∧
        FreeOfResidue (Execution.expectation s k op (.density sidewaysMatrix))) ∧
    letI := DecimalText.whole
    letI : BEq ℝ := ⟨fun x y => Scalar.isZero (x - y)⟩
    ∃ p, ((Backend.new : Backend ℝ).prepare 0 (Backend.entangledPair ℝ)).2 = .ok p ∧
      ∀ (o : Occasion) (mode : RunMode ℝ), FreeOfResidue
        (((Backend.new : Backend ℝ).prepare 0 (Backend.entangledPair ℝ)).1.run o p mode) := by
  have hvector : Engine.State.Hermitian (.vector sideways) := rfl
  have hdensity : Engine.State.Hermitian (.density sidewaysMatrix) := sidewaysMatrix_hermitian
  refine ⟨⟨negatedY_assembled, le_rfl, expectation_exact.1 negatedY_assembled le_rfl,
    expectation_sideways⟩, ⟨hvector, hdensity, fun s k op =>
      ⟨expectation_exact.2.1 hvector s k op, expectation_exact.2.1 hdensity s k op⟩⟩, ?_⟩
  let _ := DecimalText.whole
  let _ : BEq ℝ := ⟨fun x y => Scalar.isZero (x - y)⟩
  have hp : ((Backend.new : Backend ℝ).prepare 0 (Backend.entangledPair ℝ)).2 = .ok _ := rfl
  have hb : (Backend.new : Backend ℝ).Reachable := .build "qulacs" {}
  exact ⟨_, hp, expectation_exact.2.2 hb (hb.sound.prepare_fst 0 _).1 hp⟩

end KetSim

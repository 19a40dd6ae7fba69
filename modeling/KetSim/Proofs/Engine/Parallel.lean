import KetSim.Proofs.Engine.Device
import KetSim.Proofs.Engine.Reduction

/-! # Parallel evaluation

The accelerated device may treat the blocks of a buffer in any order and may
bracket a sum in any way. In exact arithmetic neither choice shows: a run has one
outcome and an expectation one value.
-/
namespace KetSim.Engine

variable {α : Type} [Scalar α]

/-! ## Blocks in any order -/

/-- The buffers that a dense kernel may leave when its blocks are treated in any order. -/
def Blockwise (targets : List ℕ) (m buffer result : Array (Cplx α)) : Prop :=
  ∃ order : List ℕ, order.Perm (List.range (numChunks targets buffer.size)) ∧
    applyChunks targets m order buffer = result

theorem blockwise_iff {targets : List ℕ} (ht : targets.Nodup) {n : ℕ} (hn : ∀ q ∈ targets, q < n)
    (m : Array (Cplx α)) {buffer : Array (Cplx α)} (hsize : buffer.size = 2 ^ n)
    {result : Array (Cplx α)} :
    Blockwise targets m buffer result ↔ result = applyMatrix targets m buffer := by
  constructor
  · rintro ⟨order, horder, rfl⟩
    exact applyChunks_eq_applyMatrix ht hn m hsize horder
  · rintro rfl
    exact ⟨_, List.Perm.refl _, applyChunks_eq_applyMatrix ht hn m hsize (List.Perm.refl _)⟩

/-- The states that a gate may leave on the accelerated device. -/
inductive State.Accelerates (g : Gate α) : State α → State α → Prop
  | vector {s : StateVector α} {amplitudes : Array (Cplx α)} (hg : g.check s.numQubits = .ok ())
      (h : Blockwise g.qubits g.matrix s.amplitudes amplitudes) :
      Accelerates g (.vector s)
        (.vector { s with amplitudes := keep s.options.precision amplitudes })
  | density {d : DensityMatrix α} {rows cols : Array (Cplx α)}
      (hg : g.check d.numQubits = .ok ()) (hrows : Blockwise g.qubits g.matrix d.elements rows)
      (hcols : Blockwise (g.qubits.map (· + d.numQubits)) (g.matrix.map Cplx.conj) rows cols) :
      Accelerates g (.density d)
        (.density { d with elements := keep d.options.precision cols })

theorem State.accelerates_iff {s s' : State ℝ} (hs : s.Sized) {g : Gate ℝ} :
    s.Accelerates g s' ↔ s.applyGate g = .ok s' := by
  cases s with
  | vector s =>
    simp only [State.Sized] at hs
    simp only [State.applyGate, StateVector.applyGate_eq hs]
    cases hc : g.check s.numQubits with
    | error e =>
      constructor
      · rintro ⟨hg, -⟩
        simp [hg] at hc
      · simp [Except.map]
    | ok u =>
      have hg := Gate.check_eq_ok.mp hc
      have hblocks (result : Array (Cplx ℝ)) :
          Blockwise g.qubits g.matrix s.amplitudes result ↔ result = g.apply s.amplitudes := by
        rw [blockwise_iff hg.nodup hg.lt g.matrix hs, ← applyOn_eq_apply .cpu hg hs, applyOn]
      simp only [Except.map, Except.ok.injEq]
      constructor
      · rintro ⟨-, h⟩
        rw [(hblocks _).mp h]
      · rintro rfl
        exact .vector hc ((hblocks _).mpr rfl)
  | density d =>
    simp only [State.Sized] at hs
    simp only [State.applyGate, DensityMatrix.applyGate_eq hs]
    cases hc : g.check d.numQubits with
    | error e =>
      constructor
      · intro h
        cases h with
        | density hg => simp [hg] at hc
      · simp [Except.map]
    | ok u =>
      have hg := Gate.check_eq_ok.mp hc
      have hsize : (applyMatrix g.qubits g.matrix d.elements).size = 2 ^ (2 * d.numQubits) := by
        rw [size_applyMatrix, hs]
      have hrows (result : Array (Cplx ℝ)) :
          Blockwise g.qubits g.matrix d.elements result ↔
            result = applyMatrix g.qubits g.matrix d.elements :=
        blockwise_iff hg.nodup hg.lt_two_mul g.matrix hs
      have hcols (result : Array (Cplx ℝ)) :
          Blockwise (g.qubits.map (· + d.numQubits)) (g.matrix.map Cplx.conj)
            (applyMatrix g.qubits g.matrix d.elements) result ↔
              result = applyMatrix (g.qubits.map (· + d.numQubits)) (g.matrix.map Cplx.conj)
                (applyMatrix g.qubits g.matrix d.elements) :=
        blockwise_iff hg.shift.1 hg.shift.2 (g.matrix.map Cplx.conj) hsize
      simp only [Except.map, Except.ok.injEq]
      constructor
      · intro h
        cases h with
        | density _ h1 h2 =>
          rw [(hrows _).mp h1] at h2
          rw [(hcols _).mp h2]
      · rintro rfl
        exact .density hc ((hrows _).mpr rfl) ((hcols _).mpr rfl)

inductive Program.Outcome : List (Gate α) → State α → State α × Option EngineError → Prop
  | done (s : State α) : Outcome [] s (s, none)
  | step {g : Gate α} {rest : List (Gate α)} {s s' : State α} {r : State α × Option EngineError}
      (head : s.Accelerates g s') (tail : Outcome rest s' r) : Outcome (g :: rest) s r
  | stop {g : Gate α} {rest : List (Gate α)} {s : State α} {e : EngineError}
      (h : g.check s.numQubits = .error e) : Outcome (g :: rest) s (s, some e)

theorem State.applyGate_eq_error {s : State α} {g : Gate α} {e : EngineError} :
    s.applyGate g = .error e ↔ g.check s.numQubits = .error e := by
  cases s with
  | vector s =>
    simp only [State.applyGate, StateVector.applyGate, State.numQubits]
    cases g.check s.numQubits <;> simp [bind, Except.bind, Except.map]
  | density d =>
    simp only [State.applyGate, DensityMatrix.applyGate, State.numQubits]
    cases g.check d.numQubits <;> simp [bind, Except.bind, Except.map]

theorem Program.outcome_iff {gates : List (Gate ℝ)} {s : State ℝ} (hs : s.Sized)
    {r : State ℝ × Option EngineError} : Outcome gates s r ↔ r = applyGates gates s := by
  induction gates generalizing s with
  | nil =>
    constructor
    · rintro ⟨⟩
      rfl
    · rintro rfl
      exact .done s
  | cons g rest ih =>
    rw [applyGates]
    constructor
    · intro h
      cases h with
      | step head tail =>
        have hg := (State.accelerates_iff hs).mp head
        rw [hg]
        exact (ih ((State.applyGate_numQubits_sized hg).2 hs)).mp tail
      | stop h => rw [State.applyGate_eq_error.mpr h]
    · intro h
      cases hg : s.applyGate g with
      | error e =>
        rw [h, hg]
        exact .stop (State.applyGate_eq_error.mp hg)
      | ok s' =>
        rw [hg] at h
        exact .step ((State.accelerates_iff hs).mpr hg)
          ((ih ((State.applyGate_numQubits_sized hg).2 hs)).mpr h)

/-- The outcomes that a program may have on the accelerated device. -/
def Program.Accelerated (p : Program α) (s : State α) (r : State α × Option EngineError) : Prop :=
  if s.numQubits ≠ p.numQubits then r = (s, some (.sizeMismatch p.numQubits s.numQubits))
  else Outcome p.gates s r

theorem Program.accelerated_iff (p : Program ℝ) {s : State ℝ} (hs : s.Sized)
    {r : State ℝ × Option EngineError} : p.Accelerated s r ↔ r = p.run s := by
  unfold Accelerated run
  split
  · rfl
  · exact outcome_iff hs

/-! ## Sums in any bracketing -/

/-- The weighted sums, from a total on, of values that are reduced in parallel. -/
inductive StateVector.Weighs (s : StateVector α) : List (Term α) → Cplx α → Cplx α → Prop
  | done (total : Cplx α) : Weighs s [] total total
  | term {t : Term α} {rest : List (Term α)} {total value result : Cplx α}
      (head : Reduces (s.pauliTerms t.masks) value)
      (tail : Weighs s rest (total + Cplx.scale t.coeff value) result) :
      Weighs s (t :: rest) total result

inductive State.Expects : State α → Observable α → Except EngineError (Cplx α) → Prop
  | wide {s : State α} {o : Observable α} {e : EngineError}
      (h : checkObservable o s.numQubits = .error e) : Expects s o (.error e)
  | vector {s : StateVector α} {o : Observable α} {value : Cplx α}
      (h : checkObservable o s.numQubits = .ok ()) (hv : s.Weighs o.terms 0 value) :
      Expects (.vector s) o (.ok value)
  | density {d : DensityMatrix α} {o : Observable α} {value : Cplx α}
      (h : d.expectation o = .ok value) : Expects (.density d) o (.ok value)

theorem StateVector.Weighs.eq_foldl {s : StateVector ℝ} {terms : List (Term ℝ)}
    {total result : Cplx ℝ} (h : s.Weighs terms total result) :
    result = terms.foldl (fun total t => total + Cplx.scale t.coeff (s.pauliValue t.masks))
      total := by
  induction h with
  | done total => rfl
  | @term t _ _ _ _ head tail ih => rw [ih, List.foldl_cons, head.eq_sum, s.pauliValue_real]

theorem StateVector.weighs_foldl (s : StateVector α) (terms : List (Term α)) (total : Cplx α) :
    s.Weighs terms total
      (terms.foldl (fun total t => total + Cplx.scale t.coeff (s.pauliValue t.masks)) total) := by
  induction terms generalizing total with
  | nil => exact .done total
  | cons t rest ih => exact .term (reduces_sumOn _ _) (ih _)

/-- A parallel expectation value is the sequential one. -/
theorem State.expects_iff {s : State ℝ} {o : Observable ℝ} {r : Except EngineError (Cplx ℝ)} :
    s.Expects o r ↔ r = s.expectation o := by
  constructor
  · intro h
    cases h with
    | wide h => cases s <;> simp_all [expectation, StateVector.expectation,
        DensityMatrix.expectation, State.numQubits, bind, Except.bind]
    | vector h hv => simp [expectation, StateVector.expectation, h, bind, Except.bind, weightedSum,
        hv.eq_foldl]
    | density h => exact h.symm
  · rintro rfl
    cases hc : checkObservable o s.numQubits with
    | error e => cases s <;> simp_all [expectation, StateVector.expectation,
        DensityMatrix.expectation, State.numQubits, bind, Except.bind, State.Expects.wide]
    | ok u =>
      cases s with
      | vector s =>
        have hs := s.weighs_foldl o.terms 0
        simp only [State.numQubits] at hc
        simp only [expectation, StateVector.expectation, hc, bind, Except.bind]
        exact .vector hc hs
      | density d =>
        simp only [State.numQubits] at hc
        simp only [expectation, DensityMatrix.expectation, hc, bind, Except.bind]
        exact .density (by simp [DensityMatrix.expectation, hc, bind, Except.bind])

end KetSim.Engine

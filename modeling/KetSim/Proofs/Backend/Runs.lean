import KetSim.Proofs.Backend.CheckedRun
import KetSim.Proofs.Circuit.Alike
import KetSim.Proofs.Lowering.Operators

/-! # Runs of prepared circuits

A circuit from the builder that has been prepared can be executed. Its gates fit
the register, so a run fails only where its state cannot be allocated, where an
operator names a qubit that the circuit does not have, or where rounding leaves an
imaginary part. On the way no index and no shift is out of range.
-/
namespace KetSim

variable {α : Type}

/-! ## Operators -/

/-- An operator has a factor beyond a register of `n` qubits. -/
def PauliOperator.Exceeds (op : PauliOperator α) (n : ℕ) : Prop :=
  ∃ term ∈ op.terms, ∃ factor ∈ term.1.ops, n ≤ factor.1.index

namespace Circuit.WellFormed

variable {c : Circuit α}

theorem places (h : c.WellFormed) :
    (QubitLayout.ofCircuit ⟨true⟩ c).Places c.numQubits c.place where
  index _ hq := h.index_eq hq
  outside _ hq := h.index_eq_error (not_lt.mpr hq)
  lt _ hq := h.place_lt hq
  injOn _ _ _ _ hpq := h.place_injective hpq

/-- An operator has an observable unless it has a factor beyond the register. -/
theorem observable_cases (h : c.WellFormed) {op : PauliOperator α} (hop : op.Canonical) :
    (∃ o, (QubitLayout.ofCircuit ⟨true⟩ c).observable op = .ok o) ∨
    (op.Exceeds c.numQubits ∧ ∃ q,
      (QubitLayout.ofCircuit ⟨true⟩ c).observable op =
        .error (.qubitOutOfRange q c.numQubits)) := by
  obtain ⟨o, -, ho, -⟩ | ⟨before, q, p, after, hsplit, -, hq, he⟩ := h.places.observable_cases hop
  · exact .inl ⟨o, ho⟩
  · have hmem : (q, p) ∈ op.factors := hsplit ▸ List.mem_append_right _ List.mem_cons_self
    obtain ⟨term, hterm, hfactor⟩ := List.mem_flatMap.mp hmem
    exact .inr ⟨⟨term, hterm, (q, p), hfactor, hq⟩, q, he⟩

end Circuit.WellFormed

/-! ## Executions -/

variable [Scalar α]

theorem Engine.State.exists_expectation {state : Engine.State α} {o : Engine.Observable α}
    (h : o.numQubits ≤ state.numQubits) : ∃ value, state.expectation o = .ok value := by
  cases state with
  | vector v => exact ⟨_, StateVector.expectation_eq_ok.mpr ⟨h, rfl⟩⟩
  | density d => exact ⟨_, DensityMatrix.expectation_eq_ok.mpr ⟨h, rfl⟩⟩

namespace Execution

/-- A program of gates that fit reaches a final state on every state that can be allocated. -/
theorem finalState_cases (s : Settings) {k : Compiled α} (phase : α)
    (h : ∀ g ∈ k.program.gates, g.Fits k.program.numQubits) :
    (∃ state, finalState s k phase = .ok state) ∨
      (30 ≤ k.program.numQubits ∧
        ∃ e, finalState s k phase = .error e ∧ AllocationFailure k.program.numQubits e) := by
  unfold finalState
  obtain ⟨start, hstart, hn, -, -⟩ | ⟨hlarge, e, he, hfailure⟩ :=
    allocate_cases (α := α) s k.program.numQubits
  · obtain ⟨final, hfinal⟩ := Engine.Program.exists_run hn h
    simp only [hstart, evolve, hfinal, bind, Except.bind]
    exact .inl ⟨_, rfl⟩
  · exact .inr ⟨hlarge, e, by rw [he]; rfl, hfailure⟩

/-- An execution stops at the allocation, or at what the mode asks of the final state. -/
theorem execute_eq_error {s : Settings} {entropy : UInt64} {k : Compiled α} {phase : α}
    {mode : RunMode α} (h : ∀ g ∈ k.program.gates, g.Fits k.program.numQubits)
    {e : BackendError α} (he : execute s entropy k phase mode = .error e) :
    AllocationFailure k.program.numQubits e ∨
      ∃ state, finalState s k phase = .ok state ∧ observe s entropy k mode state = .error e := by
  unfold execute at he
  obtain ⟨state, hstate⟩ | ⟨-, e', he', hfailure⟩ := finalState_cases s phase h
  · rw [hstate] at he
    exact .inr ⟨state, hstate, he⟩
  · rw [he'] at he
    exact .inl (Except.error.inj he ▸ hfailure)

/-- The imaginary part of an expectation value is beyond the tolerance. -/
def Residue (s : Settings) (e : BackendError α) : Prop :=
  ∃ imaginary, e = .execution "expectation value" (.imaginaryResidue imaginary s.imaginaryTolerance)

theorem residue_of_realPart {s : Settings} {value : Cplx α} {e : BackendError α}
    (h : realPart s value = .error e) : Residue s e := by
  unfold realPart at h
  simp only at h
  split at h
  · exact ⟨value.im, (Except.error.inj h).symm⟩
  · cases h

end Execution

/-! ## Backends -/

namespace Backend

variable [DecimalText α]

/-- What the preparation of a circuit on `n` qubits promises of its runs. The engine neither stops
on the way nor refuses an observable, and an expectation value may fail by rounding. -/
structure Executes (b : Backend α) (p : Prepared α) (n : ℕ) (Rounding : BackendError α → Prop) :
    Prop where
  engine : ∃ k, b.accept p = .ok k ∧ k.program.numQubits = n ∧
    (∀ start, Execution.allocate b.settings n = .ok start → (k.program.run start).2 = none) ∧
    ∀ state, Execution.finalState b.settings k p.source.phase = .ok state →
      ∀ op o, k.layout.observable op = .ok o → ∃ value, state.expectation o = .ok value
  state : ∀ o e, b.run o p .state = .error e → Execution.AllocationFailure n e
  shots : ∀ o count own e, 1 ≤ count → count ≤ 1000000 →
    b.run o p (.shots count own) = .error e → Execution.AllocationFailure n e
  expectation : ∀ o op e, op.Canonical → b.run o p (.expectation op) = .error e →
    Execution.AllocationFailure n e ∨
      (op.Exceeds n ∧ ∃ reason, e = .incompatibleCircuit reason) ∨ Rounding e
  checked : ∀ o mode, b.run? o p mode = some (b.run o p mode)

omit [Scalar α] [DecimalText α] in
theorem checkShots_eq_ok {b : Backend α} (h : b.capabilities.maxShots = 1000000) {count : ℕ}
    (hpos : 1 ≤ count) (hle : count ≤ 1000000) (own : Option UInt64) :
    b.checkShots (.shots count own) = .ok () := by
  have hfit : ¬(count = 0 ∨ 1000000 < count) := by omega
  simp only [checkShots, h]
  simpa using hfit

/-- A run of an admitted mode stops at the allocation, or at what the mode asks of the final
state. -/
theorem run_eq_error {b : Backend α} {p : Prepared α} (hp : p.Genuine b.name) {k : Compiled α}
    (hk : p.source.compile = .ok k) {o : Occasion} {mode : RunMode α}
    (hmode : b.checkShots mode = .ok ()) {e : BackendError α} (he : b.run o p mode = .error e) :
    Execution.AllocationFailure p.source.numQubits e ∨
      ∃ state, Execution.finalState b.settings k p.source.phase = .ok state ∧
        Execution.observe b.settings o.entropy k mode state = .error e := by
  obtain ⟨k', hk', hrun⟩ := run_of_genuine hp
  obtain rfl : k' = k := Except.ok.inj (hk'.symm.trans hk)
  rw [hrun, hmode] at he
  rw [← Circuit.numQubits_of_compile hk]
  exact Execution.execute_eq_error (Circuit.fits_of_compile hk) (map_eq_error.mp he)

/-- Every observable of a compiled circuit has a value in its final states. -/
theorem exists_expectation_of_compile {c : Circuit α} {k : Compiled α}
    (hk : c.compile = .ok k) {s : Settings} {phase : α} {state : Engine.State α}
    (hstate : Execution.finalState s k phase = .ok state) {op : PauliOperator α}
    {o : Engine.Observable α} (ho : k.layout.observable op = .ok o) :
    ∃ value, state.expectation o = .ok value := by
  obtain ⟨-, hlayout, -⟩ := Circuit.compile_eq_ok.mp hk
  have hn := Circuit.numQubits_of_compile hk
  obtain ⟨-, hstaten, -⟩ := (Execution.finalState?_eq s k phase).2 state hstate
  have hwidth := (QubitLayout.assembled_observable ho).numQubits
  rw [hlayout] at hwidth
  have hlayoutn : (QubitLayout.ofCircuit ⟨true⟩ c).numQubits = c.numQubits := rfl
  exact Engine.State.exists_expectation (by omega)

/-- A backend executes the genuine preparations of well-formed circuits. -/
theorem executes_of_genuine {b : Backend α} {p : Prepared α} (hp : p.Genuine b.name)
    (hc : p.source.WellFormed) (hshots : b.capabilities.maxShots = 1000000)
    {Rounding : BackendError α → Prop}
    (hround : ∀ k state op o value e, (∀ g ∈ k.program.gates, g.Fits k.program.numQubits) →
      Execution.finalState b.settings k p.source.phase = .ok state →
      k.layout.observable op = .ok o → state.expectation o = .ok value →
      Execution.realPart b.settings value = .error e → Rounding e) :
    b.Executes p p.source.numQubits Rounding := by
  obtain ⟨k, hk, haccept⟩ := accept_of_genuine hp
  have hn := Circuit.numQubits_of_compile hk
  have hfits := Circuit.fits_of_compile hk
  obtain ⟨-, hlayout, -⟩ := Circuit.compile_eq_ok.mp hk
  refine ⟨⟨k, haccept, hn, fun start hstart => ?engine, fun state hstate op o ho =>
    exists_expectation_of_compile hk hstate ho⟩, fun o e he => ?state,
    fun o count own e hpos hle he => ?shots, fun o op e hop he => ?expectation,
    fun o mode => ?checked⟩
  case engine =>
    obtain ⟨start', hstart', hsn, -, -⟩ | ⟨-, e, he, -⟩ :=
      Execution.allocate_cases (α := α) b.settings p.source.numQubits
    · obtain rfl := Except.ok.inj (hstart.symm.trans hstart')
      obtain ⟨final, hfinal⟩ := Engine.Program.exists_run (hsn.trans hn.symm) hfits
      rw [hfinal]
    · rw [he] at hstart
      cases hstart
  case state =>
    obtain hfailure | ⟨state, -, hobserve⟩ := run_eq_error hp hk rfl he
    · exact hfailure
    · cases hobserve
  case shots =>
    obtain hfailure | ⟨state, -, hobserve⟩ :=
      run_eq_error hp hk (checkShots_eq_ok hshots hpos hle own) he
    · exact hfailure
    · cases hobserve
  case expectation =>
    obtain hfailure | ⟨state, hstate, hobserve⟩ := run_eq_error hp hk rfl he
    · exact .inl hfailure
    · right
      simp only [Execution.observe, Execution.expectation] at hobserve
      obtain ⟨o, ho⟩ | ⟨hexceeds, q, ho⟩ := hc.observable_cases hop
      · rw [← hlayout] at ho
        obtain ⟨value, hvalue⟩ := exists_expectation_of_compile hk hstate ho
        cases hreal : Execution.realPart b.settings value with
        | ok x => simp [ho, hvalue, hreal, Execution.failed, Except.mapError, bind, Except.bind]
            at hobserve
        | error e' =>
          simp only [ho, hvalue, hreal, Execution.failed, Except.mapError, bind, Except.bind]
            at hobserve
          exact .inr (hround k state op o value e hfits hstate ho hvalue
            (Except.error.inj hobserve ▸ hreal))
      · rw [← hlayout] at ho
        simp only [ho, Except.mapError, bind, Except.bind] at hobserve
        exact .inl ⟨hexceeds, _, (Except.error.inj hobserve).symm⟩
  case checked =>
    refine run?_eq (fun k' hk' => ?_) o mode
    obtain rfl := Except.ok.inj (haccept.symm.trans hk')
    rw [hn]
    exact hc.readout_within hk

variable [BEq α]

/-- What a backend has prepared for a well-formed circuit is executed in all its later states. -/
theorem executes_of_prepare {b b' : Backend α} (hb : b.Reachable) (hkeeps : b.Keeps b')
    {c : Circuit α} (hc : c.WellFormed) {ticket : ℕ} {p : Prepared α}
    (hp : (b.prepare ticket c).2 = .ok p) {Rounding : BackendError α → Prop}
    (hround : ∀ k state op o value e, (∀ g ∈ k.program.gates, g.Fits k.program.numQubits) →
      Execution.finalState b'.settings k p.source.phase = .ok state →
      k.layout.observable op = .ok o → state.expectation o = .ok value →
      Execution.realPart b'.settings value = .error e → Rounding e) :
    b'.Executes p c.numQubits Rounding := by
  have hgenuine : p.Genuine b'.name := hkeeps.name ▸ hb.sound.genuine_prepare hp
  have hshots : b'.capabilities.maxShots = 1000000 := by
    rw [hkeeps.capabilities, hb.sound.maxShots]
  obtain ⟨hsource, hn⟩ : p.source.WellFormed ∧ p.source.numQubits = c.numQubits := by
    rcases source_prepare hp with heq | hbeq
    · rw [heq]
      exact ⟨hc, rfl⟩
    · exact Circuit.WellFormed.of_beq hbeq hc
  rw [← hn]
  exact executes_of_genuine hgenuine hsource hshots hround

end Backend

/-! ## Exact arithmetic -/

/-- In exact arithmetic the value of an observable in a final state is real. -/
theorem Execution.im_expectation {s : Settings} {k : Compiled ℝ} {phase : ℝ}
    (h : ∀ g ∈ k.program.gates, g.Fits k.program.numQubits) {state : Engine.State ℝ}
    (hstate : finalState s k phase = .ok state) {op : PauliOperator ℝ} {o : Engine.Observable ℝ}
    (ho : k.layout.observable op = .ok o) {value : Cplx ℝ}
    (hvalue : state.expectation o = .ok value) : value.im = 0 := by
  have hassembled := QubitLayout.assembled_observable ho
  obtain ⟨start, final, hstart, hrun, hturn⟩ := finalState_eq_ok.mp hstate
  cases hr : s.representation with
  | stateVector =>
    obtain ⟨v, hv, rfl⟩ := (allocate_vector hr).mp hstart
    obtain ⟨hvn, -, hshows⟩ := Engine.StateVector.zero_eq_ok hv
    rw [← hvn] at hshows h
    obtain ⟨w, hw, hwn, hwshows⟩ := Engine.StateVector.applyGates_shows hshows h
    rw [Engine.Program.run_eq_applyGates (s := .vector v) hvn, hw] at hrun
    obtain ⟨rfl, -⟩ := Prod.mk.inj hrun
    obtain ⟨u, hu, hun, hushows⟩ := turn_shows hwshows phase
    obtain rfl := hturn.symm.trans hu
    have hsize : u.amplitudes.size = 2 ^ u.numQubits := by rw [hun, hwn, hushows.size]
    exact Engine.StateVector.expectation_im hsize hassembled hvalue
  | densityMatrix =>
    obtain ⟨d, hd, -⟩ := (allocate_density hr).mp hstart
    obtain ⟨v, hv⟩ : ∃ v : Engine.StateVector ℝ,
        Engine.StateVector.zero k.program.numQubits s.engineOptions = .ok v :=
      Engine.exists_vector_zero hd
    obtain ⟨hvn, -, -⟩ := Engine.StateVector.zero_eq_ok hv
    obtain ⟨w, hw⟩ := Engine.Program.exists_run (s := .vector v) hvn h
    have hvector : finalState { s with representation := .stateVector } k phase =
        .ok (turn phase w) :=
      finalState_eq_ok.mpr ⟨.vector v, w, (allocate_vector rfl).mpr ⟨v, hv, rfl⟩, hw, rfl⟩
    obtain ⟨d', u, rfl, -, houter, hlt⟩ := finalState_isOuter hr (by rfl) hstate hvector
    have hsame := houter.expectation_eq (by omega) fun t ht =>
      (QubitLayout.observable_inRange ho).flip_lt ht
    have hvalue : d'.expectation o = .ok value := hvalue
    exact Engine.StateVector.expectation_im houter.sized.2 hassembled (hsame.symm.trans hvalue)

theorem Execution.realPart_of_im {s : Settings} {value : Cplx ℝ} (h : value.im = 0) :
    realPart s value = .ok value.re := by
  have htolerance : (0 : ℝ) ≤ s.imaginaryTolerance := by
    unfold Settings.imaginaryTolerance
    cases s.precision <;> simp
  have hless : Scalar.less s.imaginaryTolerance (Scalar.abs value.im) = false := by
    rw [h, Scalar.abs, neg_zero, ite_self]
    exact decide_eq_false (not_lt.mpr htolerance)
  rw [realPart]
  simp only [hless, Bool.false_eq_true, ↓reduceIte]

namespace Backend

/-- A circuit from the builder that has been prepared is executed by the backend in all its later
states, and in exact arithmetic no rounding makes an expectation value fail. -/
theorem prepared_executes :
    (∀ {α : Type} [Scalar α] [DecimalText α] [BEq α] {b b' : Backend α} {c : Circuit α}
      {ticket : ℕ} {p : Prepared α}, b.Reachable → b.Keeps b' → c.Built →
      (b.prepare ticket c).2 = .ok p →
      b'.Executes p c.numQubits (Execution.Residue b'.settings)) ∧
    ∀ [DecimalText ℝ] [BEq ℝ] {b b' : Backend ℝ} {c : Circuit ℝ} {ticket : ℕ} {p : Prepared ℝ},
      b.Reachable → b.Keeps b' → c.Built → (b.prepare ticket c).2 = .ok p →
      b'.Executes p c.numQubits fun _ => False := by
  constructor
  · intro α _ _ _ b b' c ticket p hb hkeeps hc hp
    refine executes_of_prepare hb hkeeps hc.wellFormed hp fun k state op o value e _ _ _ _ he => ?_
    exact Execution.residue_of_realPart he
  · intro _ _ b b' c ticket p hb hkeeps hc hp
    refine executes_of_prepare hb hkeeps hc.wellFormed hp
      fun k state op o value e hfits hstate ho hvalue he => ?_
    rw [Execution.realPart_of_im (Execution.im_expectation hfits hstate ho hvalue)] at he
    cases he

/-- A pair of qubits that is entangled and measured. -/
def entangledPair (α : Type) [Zero α] : Circuit α :=
  { Circuit.withSize "pair" 2 2 with
    instructions := [.ofGate ⟨.standard .h, []⟩ [⟨0⟩], .ofGate ⟨.standard .cx, []⟩ [⟨0⟩, ⟨1⟩],
      .measure ⟨0⟩ ⟨0⟩, .measure ⟨1⟩ ⟨1⟩] }

theorem entangledPair_built (α : Type) [Zero α] [Add α] : (entangledPair α).Built := by
  have happend : (Circuit.withSize "pair" 2 2 : Circuit α).appendAll
      [.ofGate ⟨.standard .h, []⟩ [⟨0⟩], .ofGate ⟨.standard .cx, []⟩ [⟨0⟩, ⟨1⟩],
        .measure ⟨0⟩ ⟨0⟩, .measure ⟨1⟩ ⟨1⟩] = .ok (entangledPair α) := rfl
  exact (Circuit.Built.withSize "pair" 2 2).appendAll happend

/-- A pair of qubits, prepared and run by one backend, on machine numbers and on real numbers. -/
theorem prepared_executes_pair :
    (∃ p, ((new : Backend Float).prepare 0 (entangledPair Float)).2 = .ok p ∧
      ((new : Backend Float).prepare 0 (entangledPair Float)).1.Executes p 2
        (Execution.Residue {})) ∧
    letI := DecimalText.whole
    letI : BEq ℝ := ⟨fun x y => Scalar.isZero (x - y)⟩
    ∃ p, ((new : Backend ℝ).prepare 0 (entangledPair ℝ)).2 = .ok p ∧
      ((new : Backend ℝ).prepare 0 (entangledPair ℝ)).1.Executes p 2 fun _ => False := by
  constructor
  · have hp : ((new : Backend Float).prepare 0 (entangledPair Float)).2 = .ok _ := rfl
    have hb : (new : Backend Float).Reachable := .build "qulacs" {}
    exact ⟨_, hp,
      prepared_executes.1 hb (hb.sound.prepare_fst 0 _).1 (entangledPair_built Float) hp⟩
  · let _ := DecimalText.whole
    let _ : BEq ℝ := ⟨fun x y => Scalar.isZero (x - y)⟩
    have hp : ((new : Backend ℝ).prepare 0 (entangledPair ℝ)).2 = .ok _ := rfl
    have hb : (new : Backend ℝ).Reachable := .build "qulacs" {}
    exact ⟨_, hp, prepared_executes.2 hb (hb.sound.prepare_fst 0 _).1 (entangledPair_built ℝ) hp⟩

end Backend

end KetSim

import KetSim.Proofs.Backend.Reachable
import KetSim.Proofs.Engine.Parallel

/-! # Backends on different devices

Backends that differ in the device only give the same data for every request. The
accelerated engine may treat the blocks of a gate in any order and bracket a sum in
any way; it leaves the entries that the sequential one leaves, and what is read off a
final state depends on its entries alone. An answer of the accelerated backend is one
of those that such a device may come to, and each of them has the sequential data.
-/
namespace KetSim

/-! ## Engines -/

namespace Engine

namespace State

theorem probabilities_onDevice (device : Device) (s : State ℝ) :
    (s.onDevice device).probabilities = s.probabilities := by
  cases s with
  | vector s =>
    rw [onDevice, probabilities, probabilities, StateVector.probabilities_eq,
      StateVector.probabilities_eq]
  | density d => rfl

theorem expectation_onDevice (device : Device) (s : State ℝ) (o : Observable ℝ) :
    (s.onDevice device).expectation o = s.expectation o := by
  cases s with
  | vector s =>
    have hvalue (m : Masks) :
        StateVector.pauliValue { s with options := { s.options with device := device } } m =
          s.pauliValue m := by
      rw [StateVector.pauliValue_real, StateVector.pauliValue_real]
      rfl
    simp only [onDevice, expectation, StateVector.expectation, weightedSum, hvalue]
  | density d => rfl

end State

theorem StateVector.multiply_onDevice (device : Device) (s : StateVector ℝ) (factor : Cplx ℝ) :
    StateVector.multiply { s with options := { s.options with device := device } } factor =
      { s.multiply factor with options := { s.options with device := device } } := by
  rw [multiply_eq, multiply_eq]

/-- An accelerated outcome agrees with a sequential one in all that can be read off its state. -/
structure Agrees (fast slow : State ℝ × Option EngineError) : Prop where
  error : fast.2 = slow.2
  entries : fast.1.entries = slow.1.entries
  probabilities : fast.1.probabilities = slow.1.probabilities
  expectation : ∀ o r, fast.1.Expects o r ↔ r = slow.1.expectation o
  multiply : ∀ v w factor, fast.1 = .vector v → slow.1 = .vector w →
    (v.multiply factor).amplitudes = (w.multiply factor).amplitudes

theorem agrees_onDevice (d d' : Device) (s : State ℝ) (e : Option EngineError) :
    Agrees (s.onDevice d, e) (s.onDevice d', e) := by
  refine ⟨rfl, by simp, ?_, fun o r => ?_, fun v w factor hv hw => ?_⟩
  · rw [State.probabilities_onDevice, State.probabilities_onDevice]
  · rw [State.expects_iff, State.expectation_onDevice, State.expectation_onDevice]
  · cases s with
    | vector s =>
      cases hv
      cases hw
      rw [StateVector.multiply_eq, StateVector.multiply_eq]
    | density s => cases hv

end Engine

theorem Engine.Program.accelerated_agrees (p : Program ℝ) {s : State ℝ} (hs : s.Sized)
    {r : State ℝ × Option EngineError} (h : p.Accelerated (s.onDevice .gpu) r) :
    Agrees r (p.run (s.onDevice .cpu)) := by
  rw [p.accelerated_iff ((State.sized_onDevice .gpu s).mpr hs), p.run_onDevice hs] at h
  rw [h, p.run_onDevice hs]
  exact agrees_onDevice .gpu .cpu _ _

/-! ## Executions -/

namespace Execution

theorem allocate_onDevice (s : Settings) (device : Engine.Device) (n : ℕ) :
    allocate (α := ℝ) { s with device := device } n =
      (allocate s n).map (Engine.State.onDevice device) := by
  cases hr : s.representation with
  | stateVector =>
    simp only [allocate, hr, Engine.StateVector.zero]
    cases Engine.allocate (α := ℝ) n n <;> rfl
  | densityMatrix =>
    simp only [allocate, hr, Engine.DensityMatrix.zero]
    cases Engine.allocate (α := ℝ) n (2 * n) <;> rfl

theorem allocate_sized {s : Settings} {n : ℕ} {state : Engine.State ℝ}
    (h : allocate s n = .ok state) : state.Sized := by
  cases hr : s.representation with
  | stateVector =>
    simp only [allocate, hr, failed, mapError_eq_ok, map_eq_ok] at h
    obtain ⟨v, hv, rfl⟩ := h
    obtain ⟨hn, -, hshows⟩ := Engine.StateVector.zero_eq_ok hv
    rw [Engine.State.Sized, hn, hshows.size]
  | densityMatrix =>
    simp only [allocate, hr, failed, mapError_eq_ok, map_eq_ok] at h
    obtain ⟨d, hd, rfl⟩ := h
    obtain ⟨hn, -, hshows⟩ := Engine.DensityMatrix.zero_eq_ok hd
    rw [Engine.State.Sized, hn, hshows.size]

theorem turn_onDevice (device : Engine.Device) (phase : ℝ) (state : Engine.State ℝ) :
    turn phase (state.onDevice device) = (turn phase state).onDevice device := by
  cases state with
  | vector v =>
    simp only [turn, Engine.State.onDevice]
    split
    · rfl
    · rw [Engine.StateVector.multiply_onDevice]
      rfl
  | density d => rfl

theorem finalState_onDevice (s : Settings) (device : Engine.Device) (k : Compiled ℝ) (phase : ℝ) :
    finalState { s with device := device } k phase =
      (finalState s k phase).map (Engine.State.onDevice device) := by
  simp only [finalState, allocate_onDevice]
  cases ha : allocate (α := ℝ) s k.program.numQubits with
  | error e => rfl
  | ok start =>
    simp only [Except.map, bind, Except.bind, evolve, k.program.run_onDevice (allocate_sized ha)]
    rcases k.program.run start with ⟨state, _ | e⟩
    · simp only [turn_onDevice]
    · rfl

theorem stateData_onDevice (device : Engine.Device) (state : Engine.State ℝ) :
    stateData (state.onDevice device) = stateData state := by
  cases state <;> rfl

theorem observe_onDevice (s : Settings) (device : Engine.Device) (entropy : UInt64)
    (k : Compiled ℝ) (mode : RunMode ℝ) (state : Engine.State ℝ) :
    observe { s with device := device } entropy k mode (state.onDevice device) =
      observe s entropy k mode state := by
  cases mode with
  | state => rw [observe, observe, stateData_onDevice]
  | shots count own =>
    simp only [observe, shotTable, Engine.State.sample, Engine.State.probabilities_onDevice]
    rfl
  | expectation op =>
    simp only [observe, expectation, Engine.State.expectation_onDevice]
    rfl

theorem execute_onDevice (s : Settings) (device : Engine.Device) (entropy : UInt64)
    (k : Compiled ℝ) (phase : ℝ) (mode : RunMode ℝ) :
    execute { s with device := device } entropy k phase mode = execute s entropy k phase mode := by
  simp only [execute, finalState_onDevice]
  cases finalState s k phase with
  | error e => rfl
  | ok state => exact observe_onDevice s device entropy k mode state

/-! ## Executions on the accelerated device -/

section Accelerated

variable {α : Type} [Scalar α]

/-- The observations that a mode may make of a final state whose sums are bracketed in any way. -/
inductive Observes (s : Settings) (entropy : UInt64) (k : Compiled α) (state : Engine.State α) :
    RunMode α → Except (BackendError α) (ResultData α × Option UInt64) → Prop
  | state : Observes s entropy k state .state (.ok (stateData state, none))
  | shots (count : ℕ) (own : Option UInt64) :
      Observes s entropy k state (.shots count own)
        (.ok (.shots (shotTable k count (seedOf s entropy own) state), some (seedOf s entropy own)))
  | unplaced {op : PauliOperator α} {e : LoweringError} (h : k.layout.observable op = .error e) :
      Observes s entropy k state (.expectation op) (.error (.ofLowering e))
  | expectation {op : PauliOperator α} {o : Engine.Observable α} {r : Except EngineError (Cplx α)}
      (h : k.layout.observable op = .ok o) (hr : state.Expects o r) :
      Observes s entropy k state (.expectation op) (do
        let value ← failed "expectation value" r
        let real ← realPart s value
        .ok (.expectation real, none))

/-- The outcomes of an execution whose program runs in any way an accelerated device may run it. -/
inductive Accelerates (s : Settings) (entropy : UInt64) (k : Compiled α) (phase : α)
    (mode : RunMode α) : Except (BackendError α) (ResultData α × Option UInt64) → Prop
  | unallocated {e : BackendError α} (h : allocate s k.program.numQubits = .error e) :
      Accelerates s entropy k phase mode (.error e)
  | stopped {start state : Engine.State α} {e : EngineError}
      (h : allocate s k.program.numQubits = .ok start)
      (hrun : k.program.Accelerated start (state, some e)) :
      Accelerates s entropy k phase mode (.error (.execution "circuit evolution" (.engine e)))
  | ran {start state : Engine.State α}
      {r : Except (BackendError α) (ResultData α × Option UInt64)}
      (h : allocate s k.program.numQubits = .ok start)
      (hrun : k.program.Accelerated start (state, none))
      (hr : Observes s entropy k (turn phase state) mode r) :
      Accelerates s entropy k phase mode r

end Accelerated

variable {s : Settings} {entropy : UInt64} {k : Compiled ℝ} {phase : ℝ} {mode : RunMode ℝ}
  {r : Except (BackendError ℝ) (ResultData ℝ × Option UInt64)}

theorem observe_expectation {op : PauliOperator ℝ} {o : Engine.Observable ℝ}
    (h : k.layout.observable op = .ok o) (state : Engine.State ℝ) :
    observe s entropy k (.expectation op) state = (do
      let value ← failed "expectation value" (state.expectation o)
      let real ← realPart s value
      .ok (.expectation real, none)) := by
  rw [observe, expectation, h]
  exact bind_assoc (m := Except (BackendError ℝ)) (failed _ (state.expectation o)) _ _

theorem observes_iff {state : Engine.State ℝ} :
    Observes s entropy k state mode r ↔ r = observe s entropy k mode state := by
  constructor
  · intro h
    cases h with
    | state => rfl
    | shots count own => rfl
    | unplaced h => simp only [observe, expectation, h]; rfl
    | expectation h hr =>
      rw [Engine.State.expects_iff.mp hr, observe_expectation h]
  · rintro rfl
    cases mode with
    | state => exact .state
    | shots count own => exact .shots count own
    | expectation op =>
      cases h : k.layout.observable op with
      | error e =>
        have hobserve : observe s entropy k (.expectation op) state = .error (.ofLowering e) := by
          simp only [observe, expectation, h]
          rfl
        exact hobserve ▸ .unplaced h
      | ok o =>
        rw [observe_expectation h]
        exact .expectation h (Engine.State.expects_iff.mpr rfl)

theorem accelerates_iff :
    Accelerates s entropy k phase mode r ↔ r = execute s entropy k phase mode := by
  unfold execute finalState evolve
  cases ha : allocate (α := ℝ) s k.program.numQubits with
  | error e =>
    constructor
    · rintro (h | ⟨h, -⟩ | ⟨h, -, -⟩)
      · exact congrArg Except.error (Except.error.inj (h.symm.trans ha))
      · cases ha.symm.trans h
      · cases ha.symm.trans h
    · rintro rfl
      exact .unallocated ha
  | ok start =>
    have hruns {out : Engine.State ℝ × Option EngineError} :
        k.program.Accelerated start out ↔ out = k.program.run start :=
      k.program.accelerated_iff (allocate_sized ha)
    constructor
    · rintro (h | ⟨h, hrun⟩ | ⟨h, hrun, hr⟩)
      · cases ha.symm.trans h
      · obtain rfl := Except.ok.inj (ha.symm.trans h)
        simp only [bind, Except.bind, ← hruns.mp hrun]
      · obtain rfl := Except.ok.inj (ha.symm.trans h)
        simp only [bind, Except.bind, ← hruns.mp hrun, observes_iff.mp hr]
    · rintro rfl
      rcases hrun : k.program.run start with ⟨state, _ | e⟩
      · simp only [bind, Except.bind, hrun]
        exact .ran ha (hruns.mpr hrun.symm) (observes_iff.mpr rfl)
      · simp only [bind, Except.bind, hrun]
        exact .stopped ha (hruns.mpr hrun.symm)

end Execution

/-! ## Backends -/

/-- The seed that a request is served with, if it draws shots. -/
def RunMode.seedWith {α : Type} (s : Settings) (entropy : UInt64) : RunMode α → Option UInt64
  | .shots _ own => some (Execution.seedOf s entropy own)
  | _ => none

namespace Backend

theorem execute_congr_seed {α : Type} [Scalar α] {s : Settings} {entropy entropy' : UInt64}
    {mode : RunMode α} (h : mode.seedWith s entropy = mode.seedWith s entropy') (k : Compiled α)
    (phase : α) :
    Execution.execute s entropy k phase mode = Execution.execute s entropy' k phase mode := by
  cases mode with
  | shots count own =>
    have hseed := Option.some.inj h
    simp only [Execution.execute, Execution.observe, hseed]
  | state => rfl
  | expectation op => rfl

variable [DecimalText ℝ]

noncomputable def data? (b : Backend ℝ) (o : Occasion) (c : Circuit ℝ) (mode : RunMode ℝ) :
    Option (ResultData ℝ) :=
  (b.process o c mode).2.toOption.map (·.data)

theorem Sound.data_eq {b : Backend ℝ} (h : b.Sound) (o : Occasion) (c : Circuit ℝ)
    (mode : RunMode ℝ) : b.data? o c mode = (b.answer o.entropy c mode).toOption.map (·.1) := by
  rw [data?, h.process_snd]
  cases b.answer o.entropy c mode <;> rfl

theorem Sound.data_onDevice {b b' : Backend ℝ} (h : b.Sound) (h' : b'.Sound)
    {device : Engine.Device} (hs : b'.settings = { b.settings with device := device })
    {o o' : Occasion} {mode : RunMode ℝ}
    (hseed : mode.seedWith b'.settings o'.entropy = mode.seedWith b.settings o.entropy)
    (c : Circuit ℝ) : b'.data? o' c mode = b.data? o c mode := by
  have hseed' : mode.seedWith b.settings o'.entropy = mode.seedWith b.settings o.entropy := by
    rw [← hseed, hs]
    cases mode <;> rfl
  have hsize : b'.settings.maxQubits = b.settings.maxQubits := by rw [hs]
  rw [h.data_eq, h'.data_eq, answer, answer, compiled, compiled, checkSize, checkSize, hsize,
    h.checkShots_eq h', hs]
  simp only [Execution.execute_onDevice, execute_congr_seed hseed']
  split <;> rfl

/-- The compiled form that a backend runs, unless it refuses the preparation or the shots. -/
noncomputable def grant (b : Backend ℝ) (p : Prepared ℝ) (mode : RunMode ℝ) :
    Except (BackendError ℝ) (Compiled ℝ) := do
  let k ← b.accept p
  b.checkShots mode
  .ok k

/-- The answers that a request may come to if the device may run the program in any order and
bracket the sums in any way. -/
inductive Serves (b : Backend ℝ) (o : Occasion) (c : Circuit ℝ) (mode : RunMode ℝ) :
    Except (BackendError ℝ) (ExecutionResult ℝ) → Prop
  | unprepared {b' : Backend ℝ} {e : BackendError ℝ} (h : b.prepare o.ticket c = (b', .error e)) :
      Serves b o c mode (.error e)
  | refused {b' : Backend ℝ} {p : Prepared ℝ} {e : BackendError ℝ}
      (h : b.prepare o.ticket c = (b', .ok p)) (he : b'.grant p mode = .error e) :
      Serves b o c mode (.error e)
  | ran {b' : Backend ℝ} {p : Prepared ℝ} {k : Compiled ℝ}
      {r : Except (BackendError ℝ) (ResultData ℝ × Option UInt64)}
      (h : b.prepare o.ticket c = (b', .ok p)) (hk : b'.grant p mode = .ok k)
      (hr : Execution.Accelerates b'.settings o.entropy k p.source.phase mode r) :
      Serves b o c mode (r.map fun (data, seed) =>
        ⟨data, ⟨b'.name, k.program.numQubits, some o.milliseconds, seed⟩⟩)

omit [DecimalText ℝ] in
theorem run_eq_grant (b : Backend ℝ) (o : Occasion) (p : Prepared ℝ) (mode : RunMode ℝ) :
    b.run o p mode = (do
      let k ← b.grant p mode
      (Execution.execute b.settings o.entropy k p.source.phase mode).map fun (data, seed) =>
        ⟨data, ⟨b.name, k.program.numQubits, some o.milliseconds, seed⟩⟩) := by
  unfold run grant
  cases b.accept p with
  | error e => rfl
  | ok k => cases b.checkShots mode <;> rfl

theorem serves_iff {b : Backend ℝ} {o : Occasion} {c : Circuit ℝ} {mode : RunMode ℝ}
    {r : Except (BackendError ℝ) (ExecutionResult ℝ)} :
    b.Serves o c mode r ↔ r = (b.process o c mode).2 := by
  unfold process
  constructor
  · intro h
    cases h with
    | unprepared h => rw [h]
    | refused h he =>
      rw [h]
      simp only [run_eq_grant, he]
      rfl
    | ran h hk hr =>
      rw [h, Execution.accelerates_iff.mp hr]
      simp only [run_eq_grant, hk]
      rfl
  · rintro rfl
    rcases hp : b.prepare o.ticket c with ⟨b', e | p⟩
    · exact .unprepared hp
    · simp only [run_eq_grant]
      cases hk : b'.grant p mode with
      | error e => exact .refused hp hk
      | ok k => exact .ran hp hk (Execution.accelerates_iff.mpr rfl)

/-- The accelerated engine refines the sequential one. From every buffer that fits its register,
every accelerated run of a program agrees with the sequential run. Every request to a backend comes
to the same data on both devices: the answer of the accelerated backend is one that its device may
come to, and every such answer has the sequential data. -/
theorem accelerated_refines_sequential :
    (∀ (p : Engine.Program ℝ) (s : Engine.State ℝ), s.Sized →
      p.Accelerated (s.onDevice .gpu) (p.run (s.onDevice .gpu)) ∧
        ∀ r, p.Accelerated (s.onDevice .gpu) r → Engine.Agrees r (p.run (s.onDevice .cpu))) ∧
    ∀ (s : Settings) (slow fast : Backend ℝ), slow.Reachable → fast.Reachable →
      slow.settings = { s with device := .cpu } → fast.settings = { s with device := .gpu } →
      ∀ (o o' : Occasion) (c : Circuit ℝ) (mode : RunMode ℝ),
        mode.seedWith fast.settings o'.entropy = mode.seedWith slow.settings o.entropy →
        fast.data? o' c mode = slow.data? o c mode ∧
        fast.Serves o' c mode (fast.process o' c mode).2 ∧
        ∀ r, fast.Serves o' c mode r → r.toOption.map (·.data) = slow.data? o c mode := by
  constructor
  · intro p s hs
    have hgpu := (Engine.State.sized_onDevice .gpu s).mpr hs
    exact ⟨(p.accelerated_iff hgpu).mpr rfl, fun r hr => p.accelerated_agrees hs hr⟩
  · intro s slow fast hslow hfast hs hs' o o' c mode hseed
    have hsettings : fast.settings = { slow.settings with device := .gpu } := by rw [hs', hs]
    have hdata := hslow.sound.data_onDevice hfast.sound hsettings hseed c
    refine ⟨hdata, serves_iff.mpr rfl, fun r hr => ?_⟩
    rw [serves_iff.mp hr]
    exact hdata

omit [DecimalText ℝ] in
/-- A Hadamard gate on one qubit, and a circuit without gates, on both devices. -/
theorem accelerated_refines_sequential_one_qubit :
    let _ : DecimalText ℝ := DecimalText.whole
    Engine.Agrees
      ((⟨1, [.h 0]⟩ : Engine.Program ℝ).run
        (Engine.State.onDevice .gpu (.vector ⟨#[1, 0], 1, {}⟩)))
      ((⟨1, [.h 0]⟩ : Engine.Program ℝ).run
        (Engine.State.onDevice .cpu (.vector ⟨#[1, 0], 1, {}⟩))) ∧
    (build "qulacs-gpu" { device := .gpu }).data? ⟨0, 0, 0, ⟨"job"⟩, ⟨2024, 1, 1, 0, 0, 0, 0⟩⟩
        (Circuit.withSize "one" 1 0) .state =
      (build "qulacs" { device := .cpu }).data? ⟨0, 0, 0, ⟨"job"⟩, ⟨2024, 1, 1, 0, 0, 0, 0⟩⟩
        (Circuit.withSize "one" 1 0) .state := by
  let _ : DecimalText ℝ := DecimalText.whole
  obtain ⟨hengine, hbackend⟩ := accelerated_refines_sequential
  obtain ⟨hrun, hall⟩ := hengine ⟨1, [.h 0]⟩ (.vector ⟨#[1, 0], 1, {}⟩) rfl
  exact ⟨hall _ hrun, (hbackend {} _ _ (.build _ _) (.build _ _) rfl rfl _ _ _ _ rfl).1⟩

end Backend

end KetSim

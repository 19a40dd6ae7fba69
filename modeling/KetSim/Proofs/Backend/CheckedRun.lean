import KetSim.Proofs.Backend.Representations
import KetSim.Proofs.Engine.CheckedState

/-! # Checked executions

The run of a preparation with every access of the engine and of the readout
checked. A fresh state has one entry for each index of its register, so a run has
an answer if the readout takes its bits from the register.
-/
namespace KetSim

variable {α : Type} [Scalar α]

/-! ## Readouts -/

namespace Readout

def bit? (outcome : ℕ) : Option ℕ → Option ℕ
  | some k => (Engine.testBit? outcome k).map fun isSet => if isSet then 1 else 0
  | none => some 0

def row? (r : Readout) (outcome : ℕ) : Option (List ℕ) := r.columns.mapM (bit? outcome)

/-- Every column takes its bit from a register of `n` qubits. -/
def Within (r : Readout) (n : ℕ) : Prop := ∀ k, some k ∈ r.columns → k < n

omit [Scalar α] in
theorem row?_eq {r : Readout} (h : r.Within 64) (outcome : ℕ) :
    r.row? outcome = some (r.row outcome) := by
  refine Engine.mapM_eq_map fun column hcolumn => ?_
  cases column with
  | none => rfl
  | some k =>
    rw [bit?, Engine.testBit?_eq (h k hcolumn)]
    rfl

theorem Within.mono {r : Readout} {n m : ℕ} (h : r.Within n) (hnm : n ≤ m) : r.Within m :=
  fun k hk => (h k hk).trans_le hnm

variable {layout : QubitLayout} {clbits : List Clbit} {n : ℕ}

theorem Within.write {r r' : Readout} (h : r.Within n)
    (hlayout : ∀ q i, layout.index q = .ok i → i < n) {q : QubitId} {b : ClbitId}
    (hw : write layout clbits q b r = .ok r') : r'.Within n := by
  unfold Readout.write at hw
  split at hw
  · exact Except.ok.inj hw ▸ h
  · obtain ⟨i, hi, hr⟩ := bind_eq_ok.mp hw
    obtain rfl := Except.ok.inj hr
    intro k hk
    rcases List.mem_or_eq_of_mem_set hk with hk | hk
    · exact h k hk
    · exact Option.some.inj hk ▸ hlayout q i hi

omit [Scalar α] in
/-- A scan takes its bits from the layout. -/
theorem Scan.step_within {s s' : Scan} (h : s.readout.Within n)
    (hlayout : ∀ q i, layout.index q = .ok i → i < n) {i : Instruction α} {position : ℕ}
    (hs : s.step layout clbits i position = .ok s') : s'.readout.Within n := by
  unfold step at hs
  split at hs
  · split at hs
    · obtain ⟨r, hr, hs⟩ := bind_eq_ok.mp hs
      exact Except.ok.inj hs ▸ h.write hlayout hr
    · exact Except.ok.inj hs ▸ h
  · exact Except.ok.inj hs ▸ h
  all_goals
    split at hs
    · cases hs
    · exact Except.ok.inj hs ▸ h

omit [Scalar α] in
theorem Scan.run_within (hlayout : ∀ q i, layout.index q = .ok i → i < n)
    {instructions : List (Instruction α)} {position : ℕ} {s s' : Scan} (h : s.readout.Within n)
    (hs : run layout clbits position instructions s = .ok s') : s'.readout.Within n := by
  induction instructions generalizing position s with
  | nil => exact Except.ok.inj hs ▸ h
  | cons i rest ih =>
    obtain ⟨next, hnext, hrest⟩ := bind_eq_ok.mp hs
    exact ih (step_within h hlayout hnext) hrest

omit [Scalar α] in
theorem ofCircuit_within {c : Circuit α} {r : Readout}
    (hlayout : ∀ q i, layout.index q = .ok i → i < n) (h : ofCircuit layout c = .ok r) :
    r.Within n := by
  obtain ⟨s, hs, hr⟩ := bind_eq_ok.mp h
  have hunwritten : (unwritten c.clbits).Within n := by
    intro k hk
    have hnone := List.eq_of_mem_replicate hk
    cases hnone
  exact Except.ok.inj hr ▸ Scan.run_within hlayout hunwritten hs

end Readout

/-- The columns of a compiled circuit take their bits from its register. -/
theorem Circuit.WellFormed.readout_within [DecimalText α] {c : Circuit α} (h : c.WellFormed)
    {k : Compiled α} (hk : c.compile = .ok k) : k.readout.Within c.numQubits := by
  refine Readout.ofCircuit_within (fun q i hi => ?_) (compile_eq_ok.mp hk).2.2
  by_cases hq : q.index < c.numQubits
  · rw [h.index_eq hq] at hi
    exact Except.ok.inj hi ▸ h.place_lt hq
  · rw [h.index_eq_error hq] at hi
    cases hi

/-! ## Executions -/

namespace Execution

def allocate? (s : Settings) (n : ℕ) : Option (Except (BackendError α) (Engine.State α)) :=
  match s.representation with
  | .stateVector =>
    (Engine.allocate? n n).map fun buffer =>
      failed s!"allocating a {n}-qubit state vector"
        (buffer.map fun amplitudes => .vector ⟨amplitudes, n, s.engineOptions⟩)
  | .densityMatrix =>
    (Engine.allocate? n (2 * n)).map fun buffer =>
      failed s!"allocating a {n}-qubit density matrix"
        (buffer.map fun elements => .density ⟨elements, n, s.engineOptions⟩)

def finalState? (s : Settings) (c : Compiled α) (phase : α) :
    Option (Except (BackendError α) (Engine.State α)) := do
  let start ← allocate? s c.program.numQubits
  match start with
  | .error e => some (.error e)
  | .ok start =>
    let outcome ← c.program.run? start
    match outcome with
    | (state, none) => some (.ok (turn phase state))
    | (_, some e) => some (.error (.execution "circuit evolution" (.engine e)))

def stateData? : Engine.State α → Option (ResultData α)
  | .vector v => some (.stateVector v.amplitudes.toList)
  | .density d => d.rowMajor?.map .densityMatrix

def shotTable? (c : Compiled α) (count : ℕ) (seed : UInt64) (state : Engine.State α) :
    Option ShotTable := do
  let probabilities ← state.probabilities?
  let rows ← (Engine.sample probabilities count seed).mapM c.readout.row?
  some ⟨c.readout.width, rows⟩

def expectation? (s : Settings) (c : Compiled α) (op : PauliOperator α) (state : Engine.State α) :
    Option (Except (BackendError α) α) :=
  match (c.layout.observable op).mapError BackendError.ofLowering with
  | .error e => some (.error e)
  | .ok observable =>
    (state.expectation? observable).map fun value =>
      failed "expectation value" value >>= realPart s

def observation? (s : Settings) (entropy : UInt64) (c : Compiled α) (mode : RunMode α)
    (state : Engine.State α) : Option (Except (BackendError α) (ResultData α × Option UInt64)) :=
  match mode with
  | .state => (stateData? state).map fun data => .ok (data, none)
  | .shots count own =>
    let seed := seedOf s entropy own
    (shotTable? c count seed state).map fun table => .ok (.shots table, some seed)
  | .expectation op =>
    (expectation? s c op state).map fun value => value.map fun x => (.expectation x, none)

def execute? (s : Settings) (entropy : UInt64) (c : Compiled α) (phase : α) (mode : RunMode α) :
    Option (Except (BackendError α) (ResultData α × Option UInt64)) := do
  let state ← finalState? s c phase
  match state with
  | .error e => some (.error e)
  | .ok state => observation? s entropy c mode state

theorem allocate?_eq (s : Settings) (n : ℕ) : allocate? (α := α) s n = some (allocate s n) := by
  unfold allocate? allocate
  cases s.representation with
  | stateVector =>
    simp only [Engine.allocate?_eq, Engine.StateVector.zero]
    cases Engine.allocate (α := α) n n <;> rfl
  | densityMatrix =>
    simp only [Engine.allocate?_eq, Engine.DensityMatrix.zero]
    cases Engine.allocate (α := α) n (2 * n) <;> rfl

/-- The state of a register that is too large to be allocated. -/
inductive AllocationFailure (n : ℕ) : BackendError α → Prop
  | tooManyQubits (activity : String) :
      AllocationFailure n (.execution activity (.engine (.tooManyQubits n)))
  | allocation (activity : String) :
      AllocationFailure n (.execution activity (.engine (.allocation n)))

/-- A fresh state has one entry for each index of its register, unless it cannot be allocated,
which takes at least thirty qubits. -/
theorem allocate_cases (s : Settings) (n : ℕ) :
    (∃ start : Engine.State α, allocate s n = .ok start ∧ start.numQubits = n ∧
      start.Addressable ∧ n < 59) ∨
    (30 ≤ n ∧ ∃ e : BackendError α, allocate s n = .error e ∧ AllocationFailure n e) := by
  unfold allocate
  cases s.representation with
  | stateVector =>
    obtain ⟨buffer, hbuffer, hsize, hlt⟩ | ⟨hlarge, e, he, hcause⟩ :=
      Engine.allocate_cases (α := α) n n
    · refine .inl ⟨.vector ⟨buffer, n, s.engineOptions⟩, ?_, rfl, ⟨hsize, ?_⟩, hlt⟩
      · simp only [Engine.StateVector.zero, hbuffer]
        rfl
      · have hbits : n < 64 := by omega
        exact hbits
    · refine .inr ⟨by omega, _, by simp only [Engine.StateVector.zero, he]; rfl, ?_⟩
      rcases hcause with rfl | rfl
      · exact .tooManyQubits _
      · exact .allocation _
  | densityMatrix =>
    obtain ⟨buffer, hbuffer, hsize, hlt⟩ | ⟨hlarge, e, he, hcause⟩ :=
      Engine.allocate_cases (α := α) n (2 * n)
    · refine .inl ⟨.density ⟨buffer, n, s.engineOptions⟩, ?_, rfl, ⟨hsize, ?_⟩, by omega⟩
      · simp only [Engine.DensityMatrix.zero, hbuffer]
        rfl
      · have hbits : 2 * n < 64 := by omega
        exact hbits
    · refine .inr ⟨by omega, _, by simp only [Engine.DensityMatrix.zero, he]; rfl, ?_⟩
      rcases hcause with rfl | rfl
      · exact .tooManyQubits _
      · exact .allocation _

theorem turn_addressable {state : Engine.State α} (h : state.Addressable) (phase : α) :
    (turn phase state).Addressable ∧ (turn phase state).numQubits = state.numQubits := by
  cases state with
  | vector v =>
    have hsize : v.amplitudes.size = 2 ^ v.numQubits := h.sized
    cases hz : Scalar.isZero phase with
    | true => simpa [turn, hz] using h
    | false =>
      simp only [turn, hz, Bool.false_eq_true, ↓reduceIte]
      exact ⟨⟨by simpa [Engine.StateVector.multiply_eq, Engine.State.Sized] using hsize, h.bits_lt⟩,
        rfl⟩
  | density d => exact ⟨h, rfl⟩

/-- A final state is reached without an access beyond the entries, and has the form of the
fresh state. -/
theorem finalState?_eq (s : Settings) (c : Compiled α) (phase : α) :
    finalState? s c phase = some (finalState s c phase) ∧
      ∀ state, finalState s c phase = .ok state →
        state.Addressable ∧ state.numQubits = c.program.numQubits ∧ c.program.numQubits < 59 := by
  unfold finalState? finalState
  rw [allocate?_eq]
  obtain ⟨start, hstart, hn, haddressable, hlt⟩ | ⟨-, e, he, -⟩ :=
    allocate_cases (α := α) s c.program.numQubits
  · obtain ⟨hrun, hfinal⟩ := c.program.run?_eq haddressable
    have hkept : (c.program.run start).1.numQubits = c.program.numQubits := by
      rw [Engine.Program.run_eq_applyGates hn, Engine.Program.applyGates_numQubits, hn]
    simp only [hstart, hrun, evolve, bind, Option.bind, Except.bind]
    revert hfinal hkept
    rcases c.program.run start with ⟨final, _ | e⟩ <;> intro hfinal hkept
    · refine ⟨rfl, fun state hstate => ?_⟩
      obtain rfl := Except.ok.inj hstate
      obtain ⟨hturned, hsame⟩ := turn_addressable hfinal phase
      exact ⟨hturned, hsame.trans hkept, hlt⟩
    · exact ⟨rfl, fun state hstate => by cases hstate⟩
  · rw [he]
    exact ⟨rfl, fun state hstate => by cases hstate⟩

theorem stateData?_eq {state : Engine.State α} (h : state.Addressable) :
    stateData? state = some (stateData state) := by
  cases state with
  | vector v => rfl
  | density d => rw [stateData?, Engine.DensityMatrix.rowMajor?_eq h.sized h.bits_lt]; rfl

theorem shotTable?_eq {state : Engine.State α} (h : state.Addressable) {c : Compiled α}
    (hc : c.readout.Within 64) (count : ℕ) (seed : UInt64) :
    shotTable? c count seed state = some (shotTable c count seed state) := by
  have hrows : (Engine.sample state.probabilities count seed).mapM c.readout.row? =
      some ((Engine.sample state.probabilities count seed).map c.readout.row) :=
    Engine.mapM_eq_map fun outcome _ => Readout.row?_eq hc outcome
  simp only [shotTable?, h.probabilities?_eq, Option.bind_eq_bind, Option.bind_some, hrows]
  rfl

theorem expectation?_eq {state : Engine.State α} (h : state.Addressable) (s : Settings)
    (c : Compiled α) (op : PauliOperator α) :
    expectation? s c op state = some (expectation s c op state) := by
  unfold expectation? expectation
  cases ho : c.layout.observable op with
  | error e => rfl
  | ok o =>
    have hvalue := h.expectation?_eq (QubitLayout.observable_inRange ho)
    simp only [Except.mapError, hvalue]
    rfl

theorem observation?_eq {state : Engine.State α} (h : state.Addressable) {c : Compiled α}
    (hc : c.readout.Within 64) (s : Settings) (entropy : UInt64) (mode : RunMode α) :
    observation? s entropy c mode state = some (observe s entropy c mode state) := by
  cases mode with
  | state =>
    rw [observation?, stateData?_eq h]
    rfl
  | shots count own =>
    simp only [observation?, shotTable?_eq h hc]
    rfl
  | expectation op =>
    simp only [observation?, observe, expectation?_eq h]
    cases expectation s c op state <;> rfl

/-- An execution accesses nothing beyond the entries and the bits of its register. -/
theorem execute?_eq {c : Compiled α} (hc : c.readout.Within c.program.numQubits) (s : Settings)
    (entropy : UInt64) (phase : α) (mode : RunMode α) :
    execute? s entropy c phase mode = some (execute s entropy c phase mode) := by
  obtain ⟨hfinal, hform⟩ := finalState?_eq s c phase
  unfold execute? execute
  rw [hfinal]
  cases hstate : finalState s c phase with
  | error e => rfl
  | ok state =>
    obtain ⟨haddressable, -, hlt⟩ := hform state hstate
    exact observation?_eq haddressable (hc.mono (by omega)) s entropy mode

end Execution

/-! ## Backends -/

namespace Backend

def run? (b : Backend α) (o : Occasion) (p : Prepared α) (mode : RunMode α) :
    Option (Except (BackendError α) (ExecutionResult α)) :=
  match b.accept p, b.checkShots mode with
  | .error e, _ => some (.error e)
  | .ok _, .error e => some (.error e)
  | .ok c, .ok () =>
    (Execution.execute? b.settings o.entropy c p.source.phase mode).map fun outcome =>
      outcome.map fun (data, seed) =>
        ⟨data, ⟨b.name, c.program.numQubits, some o.milliseconds, seed⟩⟩

/-- A run accesses nothing beyond the entries and the bits of its register. -/
theorem run?_eq {b : Backend α} {p : Prepared α}
    (h : ∀ c, b.accept p = .ok c → c.readout.Within c.program.numQubits) (o : Occasion)
    (mode : RunMode α) : b.run? o p mode = some (b.run o p mode) := by
  unfold run? run
  cases hc : b.accept p with
  | error e => rfl
  | ok c =>
    cases b.checkShots mode with
    | error e => rfl
    | ok u =>
      simp only [Execution.execute?_eq (h c hc), bind, Except.bind]
      cases Execution.execute b.settings o.entropy c p.source.phase mode <;> rfl

end Backend

end KetSim

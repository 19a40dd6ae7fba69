import KetSim.Backend.Preparation
import KetSim.Engine.Program
import KetSim.Lowering.Observable

/-! # Executions

A prepared circuit is run on a fresh state, and the final state is returned,
sampled or measured against an operator. The global phase of a circuit shows in
state vectors only.
-/
namespace KetSim

/-- What a request takes from outside: a mark for a preparation, a seed for runs without one, the
time a run took, an id for a job, and the time of day. -/
structure Occasion where
  ticket : Nat
  entropy : UInt64
  milliseconds : Nat
  jobId : JobId
  now : Timestamp

namespace Execution

variable {α : Type} [Scalar α]

def failed {β : Type} (activity : String) (r : Except EngineError β) : Except (BackendError α) β :=
  r.mapError fun e => .execution activity (.engine e)

def allocate (s : Settings) (n : Nat) : Except (BackendError α) (Engine.State α) :=
  match s.representation with
  | .stateVector =>
    failed s!"allocating a {n}-qubit state vector"
      ((Engine.StateVector.zero n s.engineOptions).map .vector)
  | .densityMatrix =>
    failed s!"allocating a {n}-qubit density matrix"
      ((Engine.DensityMatrix.zero n s.engineOptions).map .density)

def evolve (p : Engine.Program α) (s : Engine.State α) : Except (BackendError α) (Engine.State α) :=
  match p.run s with
  | (s, none) => .ok s
  | (_, some e) => .error (.execution "circuit evolution" (.engine e))

/-- Turns a state vector by half turns; density matrices have no phase. -/
def turn (halfTurns : α) : Engine.State α → Engine.State α
  | .vector v =>
    if Scalar.isZero halfTurns then .vector v
    else .vector (v.multiply (Cplx.cis (Scalar.halfTurn halfTurns)))
  | .density d => .density d

def finalState (s : Settings) (c : Compiled α) (phase : α) :
    Except (BackendError α) (Engine.State α) := do
  let start ← allocate s c.program.numQubits
  let state ← evolve c.program start
  .ok (turn phase state)

def stateData : Engine.State α → ResultData α
  | .vector v => .stateVector v.amplitudes.toList
  | .density d => .densityMatrix d.rowMajor

def shotTable (c : Compiled α) (count : Nat) (seed : UInt64) (state : Engine.State α) : ShotTable :=
  ⟨c.readout.width, (state.sample count seed).map c.readout.row⟩

/-- The real part of an expectation value, whose imaginary part must be negligible. -/
def realPart (s : Settings) (value : Cplx α) : Except (BackendError α) α :=
  let tolerance := s.imaginaryTolerance
  if Scalar.less tolerance (Scalar.abs value.im) then
    .error (.execution "expectation value" (.imaginaryResidue value.im tolerance))
  else .ok value.re

def expectation (s : Settings) (c : Compiled α) (op : PauliOperator α) (state : Engine.State α) :
    Except (BackendError α) α := do
  let observable ← (c.layout.observable op).mapError BackendError.ofLowering
  let value ← failed "expectation value" (state.expectation observable)
  realPart s value

/-- The seed of a run: its own, the one of the settings, or one from outside. -/
def seedOf (s : Settings) (entropy : UInt64) (own : Option UInt64) : UInt64 :=
  (own <|> s.seed).getD entropy

/-- What a mode asks of a final state, with the seed if one was used. -/
def observe (s : Settings) (entropy : UInt64) (c : Compiled α) (mode : RunMode α)
    (state : Engine.State α) : Except (BackendError α) (ResultData α × Option UInt64) :=
  match mode with
  | .state => .ok (stateData state, none)
  | .shots count own =>
    let seed := seedOf s entropy own
    .ok (.shots (shotTable c count seed state), some seed)
  | .expectation op => do
    let value ← expectation s c op state
    .ok (.expectation value, none)

def execute (s : Settings) (entropy : UInt64) (c : Compiled α) (phase : α) (mode : RunMode α) :
    Except (BackendError α) (ResultData α × Option UInt64) := do
  let state ← finalState s c phase
  observe s entropy c mode state

end Execution

namespace Backend

variable {α : Type}

/-- A number of shots must lie between one and the limit of the backend. -/
def checkShots (b : Backend α) (mode : RunMode α) : Except (BackendError α) Unit :=
  match mode with
  | .shots count _ =>
    let limit := b.capabilities.maxShots
    if count = 0 || limit < count then
      .error (.invalidShots s!"{count} shots requested, expected 1..={limit}")
    else .ok ()
  | _ => .ok ()

/-- The compiled form of a circuit that this backend has prepared. -/
def accept (b : Backend α) (p : Prepared α) : Except (BackendError α) (Compiled α) :=
  if p.backend ≠ b.name then
    .error (.incompatibleCircuit ("Circuit was prepared by '" ++ p.backend ++ "', not '" ++ b.name ++ "'"))
  else
    match p.compiled? with
    | some c => .ok c
    | none => .error (.incompatibleCircuit "Prepared payload is not a qulacs circuit")

variable [Scalar α]

def run (b : Backend α) (o : Occasion) (p : Prepared α) (mode : RunMode α) :
    Except (BackendError α) (ExecutionResult α) := do
  let c ← b.accept p
  b.checkShots mode
  let (data, seed) ← Execution.execute b.settings o.entropy c p.source.phase mode
  .ok ⟨data, ⟨b.name, c.program.numQubits, some o.milliseconds, seed⟩⟩

variable [DecimalText α] [BEq α]

def process (b : Backend α) (o : Occasion) (c : Circuit α) (mode : RunMode α) :
    Backend α × Except (BackendError α) (ExecutionResult α) :=
  match b.prepare o.ticket c with
  | (b, .ok p) => (b, b.run o p mode)
  | (b, .error e) => (b, .error e)

/-- Runs a circuit as a job and keeps the outcome, even a failed one, under the id of the job. -/
def submit (b : Backend α) (o : Occasion) (c : Circuit α) (mode : RunMode α) :
    Backend α × Except (BackendError α) JobId :=
  match b.prepare o.ticket c with
  | (b, .error e) => (b, .error e)
  | (b, .ok p) =>
    match b.checkShots mode with
    | .error e => (b, .error e)
    | .ok () =>
      let job := { Job.new o.jobId mode.label o.now with backend := some b.name }
      let jobs := b.jobs.start job o.now
      let jobs := jobs.finish o.jobId (b.run o p mode) o.now
      ({ b with jobs := jobs }, .ok o.jobId)

omit [Scalar α] [DecimalText α] [BEq α]

def status (b : Backend α) (id : JobId) : Except (BackendError α) JobStatus := b.jobs.status id

/-- Hands out the outcome of an ended job and forgets the job. -/
def result (b : Backend α) (id : JobId) :
    Backend α × Except (BackendError α) (ExecutionResult α) :=
  let (jobs, r) := b.jobs.take id
  ({ b with jobs := jobs }, r)

end Backend

end KetSim

import KetSim.Circuit.Error
import KetSim.Circuit.Instruction

/-! # Circuits

An ordered list of instructions over declared wires, with a global phase in half
turns. Instructions are checked as they are appended, so the instructions of a
circuit built here refer to declared wires with the arity that their kind asks for.
-/
namespace KetSim

structure Circuit (α : Type) where
  name : String
  qubits : List Qubit
  clbits : List Clbit
  qregs : List QuantumRegister
  instructions : List (Instruction α)
  phase : α
  deriving BEq, Repr

namespace Circuit

variable {α : Type}

def defaultQubits : String := "q"

def defaultClbits : String := "c"

def new [Zero α] (name : String) : Circuit α := ⟨name, [], [], [], [], 0⟩

def numQubits (c : Circuit α) : Nat := c.qubits.length

def numClbits (c : Circuit α) : Nat := c.clbits.length

/-! ## Declaring wires -/

def addQubits (c : Circuit α) (n : Nat) : Circuit α :=
  if n = 0 then c
  else
    let id (i : Nat) : QubitId := ⟨c.numQubits + i⟩
    let taken := QuantumRegister.sizeOf? defaultQubits c.qregs
    { c with
      qregs := QuantumRegister.extend defaultQubits ((List.range n).map id) c.qregs
      qubits := c.qubits ++ (List.range n).map fun i => ⟨id i, defaultQubits, taken + i⟩ }

def addQubit (c : Circuit α) : Circuit α × QubitId := (c.addQubits 1, ⟨c.numQubits⟩)

def addClbits (c : Circuit α) (n : Nat) : Circuit α :=
  let id (i : Nat) : ClbitId := ⟨c.numClbits + i⟩
  let taken := c.clbits.countP (·.register == defaultClbits)
  { c with clbits := c.clbits ++ (List.range n).map fun i => ⟨id i, defaultClbits, taken + i⟩ }

def addClbit (c : Circuit α) : Circuit α × ClbitId := (c.addClbits 1, ⟨c.numClbits⟩)

def withSize [Zero α] (name : String) (numQubits numClbits : Nat) : Circuit α :=
  ((new name).addQubits numQubits).addClbits numClbits

/-- Declares a register of new qubits under a name that no quantum register has. -/
def addQubitRegister (c : Circuit α) (name : String) (size : Nat) :
    Except CircuitError (Circuit α × List QubitId) :=
  if c.qregs.any (·.name == name) then .error (.duplicateRegister name)
  else
    let id (i : Nat) : QubitId := ⟨c.numQubits + i⟩
    let ids := (List.range size).map id
    .ok ({ c with
      qubits := c.qubits ++ (List.range size).map fun i => ⟨id i, name, i⟩
      qregs := c.qregs ++ [⟨name, ids⟩] }, ids)

/-- Declares a register of new classical bits under a name that no classical bit carries. -/
def addClbitRegister (c : Circuit α) (name : String) (size : Nat) :
    Except CircuitError (Circuit α × List ClbitId) :=
  if c.clbits.any (·.register == name) then .error (.duplicateRegister name)
  else
    let id (i : Nat) : ClbitId := ⟨c.numClbits + i⟩
    .ok ({ c with clbits := c.clbits ++ (List.range size).map fun i => ⟨id i, name, i⟩ },
      (List.range size).map id)

@[simp] theorem numQubits_addQubits (c : Circuit α) (n : Nat) :
    (c.addQubits n).numQubits = c.numQubits + n := by
  unfold addQubits
  split <;> simp_all [numQubits]

@[simp] theorem numClbits_addQubits (c : Circuit α) (n : Nat) :
    (c.addQubits n).numClbits = c.numClbits := by
  unfold addQubits
  split <;> rfl

@[simp] theorem numQubits_addClbits (c : Circuit α) (n : Nat) :
    (c.addClbits n).numQubits = c.numQubits := rfl

@[simp] theorem numClbits_addClbits (c : Circuit α) (n : Nat) :
    (c.addClbits n).numClbits = c.numClbits + n := by
  simp [addClbits, numClbits]

@[simp] theorem numQubits_addQubit (c : Circuit α) : c.addQubit.1.numQubits = c.numQubits + 1 := by
  simp [addQubit]

@[simp] theorem numClbits_addQubit (c : Circuit α) : c.addQubit.1.numClbits = c.numClbits := by
  simp [addQubit]

@[simp] theorem numQubits_addClbit (c : Circuit α) : c.addClbit.1.numQubits = c.numQubits := rfl

@[simp] theorem numClbits_addClbit (c : Circuit α) : c.addClbit.1.numClbits = c.numClbits + 1 := by
  simp [addClbit]

@[simp] theorem numQubits_withSize [Zero α] (name : String) (numQubits numClbits : Nat) :
    (withSize name numQubits numClbits : Circuit α).numQubits = numQubits := by
  simp only [withSize, numQubits_addClbits, numQubits_addQubits]
  simp [new, Circuit.numQubits]

@[simp] theorem numClbits_withSize [Zero α] (name : String) (numQubits numClbits : Nat) :
    (withSize name numQubits numClbits : Circuit α).numClbits = numClbits := by
  simp only [withSize, numClbits_addClbits, numClbits_addQubits]
  simp [new, Circuit.numClbits]

/-! ## Appending instructions -/

/-- Checks that qubits are declared and differ from the ones before them. -/
def checkQubits (declared : Nat) (gate : String) (seen : List QubitId) :
    List QubitId → Except CircuitError Unit
  | [] => .ok ()
  | q :: rest =>
    if declared ≤ q.index then .error (.qubitNotFound q (some gate))
    else if q ∈ seen then .error (.duplicateQubit q (some gate))
    else checkQubits declared gate (q :: seen) rest

def checkClbits (declared : Nat) (gate : String) : List ClbitId → Except CircuitError Unit
  | [] => .ok ()
  | c :: rest =>
    if declared ≤ c.index then .error (.clbitNotFound c (some gate))
    else checkClbits declared gate rest

def checkParams : InstructionKind α → Except CircuitError Unit
  | .gate ⟨.standard g, params⟩ =>
    if params.length ≠ g.numParams then
      .error (.parameterCountMismatch g.name g.numParams params.length)
    else .ok ()
  | _ => .ok ()

/-- The number of qubits that a kind of instruction asks for; barriers take any. -/
def arity? : InstructionKind α → Option Nat
  | .gate g => some g.numQubits
  | .measure | .reset => some 1
  | .barrier => none

def checkArity (i : Instruction α) : Except CircuitError Unit :=
  match arity? i.kind with
  | some expected =>
    if i.qubits.length ≠ expected then
      .error (.qubitCountMismatch i.name expected i.qubits.length)
    else .ok ()
  | none => .ok ()

def checkTarget (i : Instruction α) : Except CircuitError Unit :=
  if i.isMeasure && i.clbits.length ≠ 1 then
    .error (.qubitCountMismatch "measure" 1 i.clbits.length)
  else .ok ()

/-- Checks an instruction against numbers of declared wires and the needs of its kind. -/
def checkAgainst (numQubits numClbits : Nat) (i : Instruction α) : Except CircuitError Unit := do
  checkQubits numQubits i.name [] i.qubits
  checkClbits numClbits i.name i.clbits
  checkParams i.kind
  checkArity i
  checkTarget i

def check (c : Circuit α) (i : Instruction α) : Except CircuitError Unit :=
  checkAgainst c.numQubits c.numClbits i

def append (c : Circuit α) (i : Instruction α) : Except CircuitError (Circuit α) := do
  c.check i
  .ok { c with instructions := c.instructions ++ [i] }

/-- Appends instructions in order, or none of them. No instruction declares a wire, so each one
is checked against the wires at hand. -/
def appendAll (c : Circuit α) (added : List (Instruction α)) : Except CircuitError (Circuit α) := do
  added.forM (checkAgainst c.numQubits c.numClbits)
  .ok { c with instructions := c.instructions ++ added }

theorem append_eq_ok_iff {c d : Circuit α} {i : Instruction α} : c.append i = .ok d ↔
    c.check i = .ok () ∧ d = { c with instructions := c.instructions ++ [i] } := by
  cases h : c.check i <;> simp [append, h, Bind.bind, Except.bind, eq_comm]

theorem appendAll_nil (c : Circuit α) : c.appendAll [] = .ok c := by
  simp [appendAll, Bind.bind, Except.bind, Pure.pure, Except.pure]

theorem appendAll_cons (c : Circuit α) (i : Instruction α) (rest : List (Instruction α)) :
    c.appendAll (i :: rest) = (c.append i).bind (·.appendAll rest) := by
  have wires (d : Circuit α) (h : d = { c with instructions := c.instructions ++ [i] }) :
      d.numQubits = c.numQubits ∧ d.numClbits = c.numClbits := by subst h; exact ⟨rfl, rfl⟩
  cases h : checkAgainst c.numQubits c.numClbits i with
  | error e => simp [appendAll, append, check, h, Bind.bind, Except.bind]
  | ok u =>
    simp [appendAll, append, check, h, Bind.bind, Except.bind, wires _ rfl]

def apply (c : Circuit α) (gate : StandardGate) (params : List (Angle α)) (qubits : List QubitId) :
    Except CircuitError (Circuit α) := do
  let g ← Gate.standard gate params
  c.append (.ofGate g qubits)

def measure (c : Circuit α) (q : QubitId) (b : ClbitId) : Except CircuitError (Circuit α) :=
  c.append (.measure q b)

/-- Measures each qubit into the bit of the same number, declaring missing bits first. -/
def measureAll (c : Circuit α) : Except CircuitError (Circuit α) :=
  (c.addClbits (c.numQubits - c.numClbits)).appendAll
    ((List.range c.numQubits).map fun i => .measure ⟨i⟩ ⟨i⟩)

def reset (c : Circuit α) (q : QubitId) : Except CircuitError (Circuit α) := c.append (.reset q)

def barrier (c : Circuit α) (qubits : List QubitId) : Except CircuitError (Circuit α) :=
  c.append (.barrier qubits)

def barrierAll (c : Circuit α) : Except CircuitError (Circuit α) := c.barrier (c.qubits.map (·.id))

/-- Adds half turns to the global phase. -/
def addPhase [Add α] (c : Circuit α) (halfTurns : α) : Circuit α :=
  { c with phase := c.phase + halfTurns }

def bind (c : Circuit α) (values : Binding α) : Circuit α :=
  { c with instructions := c.instructions.map (·.bind values) }

/-! ## Reading a circuit -/

def gates (c : Circuit α) : List (Gate α) := c.instructions.filterMap Instruction.gate?

def numGates (c : Circuit α) : Nat := c.instructions.countP Instruction.isGate

def numGatesOf (c : Circuit α) (gate : StandardGate) : Nat :=
  c.gates.countP (·.kind.standard? == some gate)

def freeSymbols (c : Circuit α) : NameSet :=
  c.gates.foldl (fun s g => g.params.foldl (fun s p => p.collectSymbols s) s) []

end Circuit

end KetSim

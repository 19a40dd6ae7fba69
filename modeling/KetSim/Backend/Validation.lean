import KetSim.Backend.Basic

/-! # Validation

Every obstacle that a circuit meets on a backend, in the order of its
instructions.
-/
namespace KetSim

/-- Why a circuit cannot run. -/
inductive Obstacle where
  | tooManyQubits (circuit : Nat) (backend : String) (limit : Nat)
  | unsupportedGate (gate : String) (position : Nat)
  | unboundParameters (gate : String) (position : Nat) (symbols : List String)
  | measuredQubitReused (gate : String) (position : Nat) (qubit : QubitId)
  deriving DecidableEq, Repr

def Obstacle.message : Obstacle → String
  | tooManyQubits n backend limit =>
    s!"Circuit has {n} qubits but " ++ backend ++ s!" supports at most {limit}"
  | unsupportedGate gate position => "Unsupported gate '" ++ gate ++ s!"' at instruction {position}"
  | unboundParameters gate position symbols =>
    "Gate '" ++ gate ++ s!"' at instruction {position} has unbound parameters: " ++
      ", ".intercalate symbols
  | measuredQubitReused gate position q =>
    "Gate '" ++ gate ++ s!"' at instruction {position} acts on measured qubit {q.text}"

namespace Validation

variable {α : Type}

def size (b : Backend α) (c : Circuit α) : List Obstacle :=
  if b.settings.maxQubits < c.numQubits then
    [.tooManyQubits c.numQubits b.name b.settings.maxQubits]
  else []

def support (position : Nat) (g : Gate α) : List Obstacle :=
  if g.kind.isSupported then [] else [.unsupportedGate g.name position]

def binding (position : Nat) (g : Gate α) : List Obstacle :=
  let symbols := g.params.flatMap Angle.symbols
  if symbols.isEmpty then [] else [.unboundParameters g.name position symbols]

def reuse (measured : List QubitId) (position : Nat) (i : Instruction α) : List Obstacle :=
  match i.qubits.find? (· ∈ measured) with
  | some q => [.measuredQubitReused i.name position q]
  | none => []

/-- The obstacles of one instruction after the given qubits have been measured. -/
def instruction (measured : List QubitId) (position : Nat) (i : Instruction α) : List Obstacle :=
  match i.kind with
  | .measure | .barrier => []
  | .reset => .unsupportedGate i.name position :: reuse measured position i
  | .gate g => support position g ++ binding position g ++ reuse measured position i

def instructions : List QubitId → Nat → List (Instruction α) → List Obstacle
  | _, _, [] => []
  | measured, position, i :: rest =>
    let seen := if i.isMeasure then i.qubits ++ measured else measured
    instruction measured position i ++ instructions seen (position + 1) rest

end Validation

/-- The obstacles of a circuit; without any it is valid. -/
def Backend.validate {α : Type} (b : Backend α) (c : Circuit α) : List Obstacle :=
  Validation.size b c ++ Validation.instructions [] 0 c.instructions

end KetSim

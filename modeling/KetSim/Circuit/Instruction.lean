import KetSim.Circuit.Gate
import KetSim.Circuit.Wire

/-! # Instructions

A step of a circuit with its operands.
-/
namespace KetSim

inductive InstructionKind (α : Type) where
  | gate (g : Gate α)
  | measure
  | reset
  | barrier
  deriving BEq, Repr

structure Instruction (α : Type) where
  kind : InstructionKind α
  qubits : List QubitId
  clbits : List ClbitId
  deriving BEq, Repr

namespace Instruction

variable {α : Type}

def ofGate (g : Gate α) (qubits : List QubitId) : Instruction α := ⟨.gate g, qubits, []⟩

def measure (q : QubitId) (c : ClbitId) : Instruction α := ⟨.measure, [q], [c]⟩

def reset (q : QubitId) : Instruction α := ⟨.reset, [q], []⟩

def barrier (qubits : List QubitId) : Instruction α := ⟨.barrier, qubits, []⟩

def gate? (i : Instruction α) : Option (Gate α) :=
  match i.kind with
  | .gate g => some g
  | _ => none

def isGate (i : Instruction α) : Bool := i.gate?.isSome

def isMeasure (i : Instruction α) : Bool :=
  match i.kind with
  | .measure => true
  | _ => false

def name (i : Instruction α) : String :=
  match i.kind with
  | .gate g => g.name
  | .measure => "measure"
  | .reset => "reset"
  | .barrier => "barrier"

def bind (values : Binding α) (i : Instruction α) : Instruction α :=
  match i.kind with
  | .gate g => { i with kind := .gate (g.bind values) }
  | _ => i

end Instruction

end KetSim

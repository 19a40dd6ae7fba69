import KetSim.Circuit.Basic
import KetSim.Lowering.Error

/-! # Qubit layouts

The engine index of every qubit of a circuit. Registers are laid out in the
order of declaration; a mirrored layout counts from the other end, so that the
first qubit is the most significant bit of an index.
-/
namespace KetSim

/-- Whether positions are counted from the end of the register. -/
structure Numbering where
  mirrored : Bool := false
  deriving DecidableEq, Repr

/-- The index of a position in a register of `n` qubits. -/
def Numbering.place (numbering : Numbering) (n position : Nat) : Nat :=
  if numbering.mirrored then n - 1 - position else position

/-- Indices of qubits; of several entries for one qubit the last one counts. -/
structure QubitLayout where
  entries : List (QubitId × Nat)
  numQubits : Nat
  deriving DecidableEq, Repr

namespace QubitLayout

def ofOrder (numbering : Numbering) (n : Nat) (order : List QubitId) : QubitLayout :=
  ⟨order.zipIdx.map fun (q, position) => (q, numbering.place n position), n⟩

/-- The qubits of each register, in the order of the registers. -/
def ofCircuit {α : Type} (numbering : Numbering) (c : Circuit α) : QubitLayout :=
  ofOrder numbering c.numQubits (c.qregs.flatMap (·.qubits))

/-- A single register of the given size. Beyond `wireLimit` its numbers come around again. -/
def linear (numbering : Numbering) (n : Nat) : QubitLayout :=
  ofOrder numbering n ((List.range n).map QubitId.ofPosition)

def index (layout : QubitLayout) (q : QubitId) : Except LoweringError Nat :=
  match layout.entries.reverse.lookup q with
  | some i => .ok i
  | none => .error (.qubitOutOfRange q layout.numQubits)

end QubitLayout

end KetSim

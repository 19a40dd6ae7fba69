import KetSim.Power

/-! # Wires

Qubits and classical bits are numbered by declaration and live in named
registers.
-/
namespace KetSim

/-- Numbers of wires and register slots are words of 32 bits. -/
def wireLimit : Nat := 2 ^ 32

/-- The number of a qubit: its place in declaration order. -/
structure QubitId where
  index : Nat
  deriving DecidableEq, Repr, Hashable

/-- The qubit whose number is a position cut to a word. -/
def QubitId.ofPosition (position : Nat) : QubitId := ⟨position % wireLimit⟩

/-- The number of a classical bit: its place in declaration order. -/
structure ClbitId where
  index : Nat
  deriving DecidableEq, Repr, Hashable

def QubitId.text (q : QubitId) : String := "q" ++ toString q.index

def ClbitId.text (c : ClbitId) : String := "c" ++ toString c.index

def slotText (register : String) (index : Nat) : String := register ++ "[" ++ toString index ++ "]"

structure Qubit where
  id : QubitId
  register : String
  index : Nat
  deriving DecidableEq, Repr

structure Clbit where
  id : ClbitId
  register : String
  index : Nat
  deriving DecidableEq, Repr

def Qubit.text (q : Qubit) : String := slotText q.register q.index

def Clbit.text (c : Clbit) : String := slotText c.register c.index

structure QuantumRegister where
  name : String
  qubits : List QubitId
  deriving DecidableEq, Repr

namespace QuantumRegister

def size (r : QuantumRegister) : Nat := r.qubits.length

/-- The size of the first register with the given name; zero if there is none. -/
def sizeOf? (name : String) (registers : List QuantumRegister) : Nat :=
  match registers.find? (·.name == name) with
  | some r => r.size
  | none => 0

/-- Appends qubits to the first register with the given name, declaring the register last if
there is none. -/
def extend (name : String) (qubits : List QubitId) : List QuantumRegister → List QuantumRegister
  | [] => [⟨name, qubits⟩]
  | r :: rest =>
    if r.name = name then ⟨r.name, r.qubits ++ qubits⟩ :: rest
    else r :: extend name qubits rest

end QuantumRegister

end KetSim

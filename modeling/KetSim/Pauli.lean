import KetSim.Circuit.Wire

/-! # Pauli operators

Weighted sums of Pauli strings. A string lists its factors other than the
identity by ascending qubit.
-/
namespace KetSim

inductive Pauli where
  | i | x | y | z
  deriving DecidableEq, Repr

def Pauli.text : Pauli → String
  | i => "I"
  | x => "X"
  | y => "Y"
  | z => "Z"

/-- A product of Pauli factors; qubits without one carry the identity. -/
structure PauliString where
  ops : List (QubitId × Pauli)
  deriving DecidableEq, Repr

namespace PauliString

def identity : PauliString := ⟨[]⟩

/-- Replaces the factor of a qubit; the identity removes it. -/
def assign (ops : List (QubitId × Pauli)) (op : QubitId × Pauli) : List (QubitId × Pauli) :=
  let others := ops.filter (·.1 ≠ op.1)
  if op.2 = .i then others else others ++ [op]

/-- The string with the last listed factor of each qubit. -/
def ofOps (ops : List (QubitId × Pauli)) : PauliString :=
  ⟨(ops.foldl assign []).mergeSort (fun a b => decide (a.1.index ≤ b.1.index))⟩

def isIdentity (p : PauliString) : Bool := p.ops.isEmpty

/-- The last listed qubit, which is the highest one. -/
def maxQubit? (p : PauliString) : Option QubitId := p.ops.getLast?.map (·.1)

def text (p : PauliString) : String :=
  if p.ops.isEmpty then "I"
  else " ".intercalate (p.ops.map fun (q, op) => op.text ++ toString q.index)

end PauliString

structure PauliOperator (α : Type) where
  terms : List (PauliString × α)
  deriving BEq, Repr

namespace PauliOperator

variable {α : Type}

def addTerm (op : PauliOperator α) (p : PauliString) (coeff : α) : PauliOperator α :=
  ⟨op.terms ++ [(p, coeff)]⟩

def numTerms (op : PauliOperator α) : Nat := op.terms.length

def maxOf : Option QubitId → Option QubitId → Option QubitId
  | some a, some b => some (if a.index ≤ b.index then b else a)
  | some a, none => some a
  | none, b => b

def maxQubit? (op : PauliOperator α) : Option QubitId :=
  op.terms.foldl (fun m term => maxOf m term.1.maxQubit?) none

end PauliOperator

end KetSim

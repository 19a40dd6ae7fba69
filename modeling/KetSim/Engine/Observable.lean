import KetSim.Cplx
import KetSim.Engine.Gate

/-! # Observables

Real-weighted sums of Pauli products on the indices of a register. A product
sends a basis state to the one with the flipped bits, times a power of `i` and a
sign.
-/
namespace KetSim.Engine

inductive Axis where
  | x | y | z
  deriving DecidableEq, Repr

def Axis.text : Axis → String
  | x => "X"
  | y => "Y"
  | z => "Z"

structure Term (α : Type) where
  coeff : α
  ops : List (Nat × Axis)
  deriving BEq, Repr

structure Observable (α : Type) where
  numQubits : Nat
  terms : List (Term α)
  deriving BEq, Repr

/-- How a Pauli product acts on basis states: the bits it flips, the bits whose parity gives
the sign, and the number of `Y` factors. -/
structure Masks where
  flip : Nat := 0
  sign : Nat := 0
  ys : Nat := 0
  deriving DecidableEq, Repr

def Masks.add (m : Masks) : Nat × Axis → Masks
  | (q, .x) => { m with flip := m.flip ||| 2 ^ q }
  | (q, .y) => ⟨m.flip ||| 2 ^ q, m.sign ||| 2 ^ q, m.ys + 1⟩
  | (q, .z) => { m with sign := m.sign ||| 2 ^ q }

variable {α : Type}

def Term.masks (t : Term α) : Masks := t.ops.foldl Masks.add {}

def bitCount (n : Nat) : Nat := (List.range (n.log2 + 1)).countP n.testBit

/-- The factor that a basis state picks up under a Pauli product. -/
def Masks.phase [Scalar α] (m : Masks) (index : Nat) : Cplx α :=
  let sign : α := if bitCount (index &&& m.sign) % 2 = 0 then 1 else -1
  let power : Cplx α :=
    match m.ys % 4 with
    | 0 => ⟨1, 0⟩
    | 1 => ⟨0, 1⟩
    | 2 => ⟨-1, 0⟩
    | _ => ⟨0, -1⟩
  Cplx.scale sign power

namespace Observable

def empty (numQubits : Nat) : Observable α := ⟨numQubits, []⟩

/-- Adds a weighted product; without factors it is a multiple of the identity. -/
def add (o : Observable α) (coeff : α) (ops : List (Nat × Axis)) :
    Except EngineError (Observable α) := do
  checkDistinct "pauli" o.numQubits [] (ops.map (·.1))
  .ok { o with terms := o.terms ++ [⟨coeff, ops⟩] }

end Observable

end KetSim.Engine

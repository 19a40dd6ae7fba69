import KetSim.Engine.Observable
import KetSim.Lowering.Layout
import KetSim.Pauli

/-! # Lowering operators

Pauli operators become observables on the indices of a layout, term by term.
-/
namespace KetSim

def Pauli.axis? : Pauli → Option Engine.Axis
  | i => none
  | x => some .x
  | y => some .y
  | z => some .z

namespace QubitLayout

variable {α : Type}

/-- The factors of a string on engine indices; identities are left out. -/
def factors (layout : QubitLayout) : List (QubitId × Pauli) →
    Except LoweringError (List (Nat × Engine.Axis))
  | [] => .ok []
  | (q, p) :: rest =>
    match p.axis? with
    | none => factors layout rest
    | some axis => do
      let i ← layout.index q
      let ops ← factors layout rest
      .ok ((i, axis) :: ops)

def addTerm (layout : QubitLayout) (o : Engine.Observable α) (term : PauliString × α) :
    Except LoweringError (Engine.Observable α) := do
  let ops ← layout.factors term.1.ops
  (o.add term.2 ops).mapError LoweringError.engine

/-- The observable of an operator on the indices of a layout. -/
def observable (layout : QubitLayout) (op : PauliOperator α) :
    Except LoweringError (Engine.Observable α) :=
  op.terms.foldlM layout.addTerm (.empty layout.numQubits)

end QubitLayout

def PauliOperator.observable {α : Type} (op : PauliOperator α) (numbering : Numbering) (n : Nat) :
    Except LoweringError (Engine.Observable α) :=
  (QubitLayout.linear numbering n).observable op

end KetSim

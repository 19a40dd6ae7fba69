import KetSim.Circuit.Gate
import KetSim.Circuit.Wire

/-! # Errors of circuit construction -/
namespace KetSim

inductive CircuitError where
  | qubitNotFound (qubit : QubitId) (gate : Option String)
  | clbitNotFound (clbit : ClbitId) (gate : Option String)
  | qubitCountMismatch (gate : String) (expected got : Nat)
  | parameterCountMismatch (gate : String) (expected got : Nat)
  | duplicateQubit (qubit : QubitId) (gate : Option String)
  | duplicateRegister (name : String)
  | unboundParameter (name : String)
  deriving DecidableEq, Repr

namespace CircuitError

def gateContext : Option String → String
  | some name => s!" (gate: {name})"
  | none => ""

def message : CircuitError → String
  | qubitNotFound q gate => s!"Qubit {q.text} not found in circuit" ++ gateContext gate
  | clbitNotFound c gate => s!"Classical bit {c.text} not found in circuit" ++ gateContext gate
  | qubitCountMismatch gate expected got =>
    "Gate '" ++ gate ++ s!"' requires {expected} qubits, got {got}"
  | parameterCountMismatch gate expected got =>
    "Gate '" ++ gate ++ s!"' takes {expected} parameters, got {got}"
  | duplicateQubit q gate => s!"Duplicate qubit {q.text} in operation" ++ gateContext gate
  | duplicateRegister name => "Register '" ++ name ++ "' already declared"
  | unboundParameter name => "Parameter '" ++ name ++ "' is unbound"

end CircuitError

/-- A built-in gate with the given angles, whose number must fit. -/
def Gate.standard {α : Type} (gate : StandardGate) (params : List (Angle α)) :
    Except CircuitError (Gate α) :=
  if params.length ≠ gate.numParams then
    .error (.parameterCountMismatch gate.name gate.numParams params.length)
  else .ok ⟨.standard gate, params⟩

end KetSim

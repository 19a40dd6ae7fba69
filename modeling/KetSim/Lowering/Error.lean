import KetSim.Circuit.Wire
import KetSim.Engine.Error

/-! # Lowering errors -/
namespace KetSim

inductive LoweringError where
  | unsupportedGate (gate : String) (position : Nat)
  | unboundParameter (gate : String) (position : Nat) (symbols : String)
  | qubitOutOfRange (qubit : QubitId) (numQubits : Nat)
  | measuredQubitReused (gate : String) (position : Nat) (qubit : QubitId)
  | engine (error : EngineError)
  deriving DecidableEq, Repr

namespace LoweringError

def gateAt (gate : String) (position : Nat) : String :=
  "Gate '" ++ gate ++ s!"' at instruction {position}"

def message : LoweringError → String
  | unsupportedGate gate position => gateAt gate position ++ " is not implemented for qulacs"
  | unboundParameter gate position symbols =>
    gateAt gate position ++ " has unbound parameters: " ++ symbols
  | qubitOutOfRange q n => s!"Qubit {q.index} is outside the {n}-qubit register"
  | measuredQubitReused gate position q =>
    gateAt gate position ++ s!" acts on measured qubit {q.index}"
  | engine e => e.message

end LoweringError

end KetSim

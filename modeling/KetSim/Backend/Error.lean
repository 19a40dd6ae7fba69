import KetSim.Decimal.Layout
import KetSim.Lowering.Error

/-! # Backend errors

Causes of a refused or failed request, over the scalars that a cause may carry.
-/
namespace KetSim

inductive ExecutionCause (α : Type) where
  | engine (error : EngineError)
  | imaginaryResidue (imaginary tolerance : α)
  deriving Repr

def ExecutionCause.message {α : Type} [DecimalText α] : ExecutionCause α → String
  | engine e => e.message
  | imaginaryResidue imaginary tolerance =>
    "Expectation value has imaginary part " ++ Decimal.scientificText imaginary ++
      " (tolerance " ++ Decimal.scientificText tolerance ++ ")"

inductive BackendError (α : Type) where
  | unsupportedGate (gate : String) (position : Nat)
  | incompatibleCircuit (reason : String)
  | execution (activity : String) (cause : ExecutionCause α)
  | configuration (reason : String)
  | unavailable (reason : String)
  | jobNotFound (id : String)
  | jobFailed (reason : String)
  | invalidShots (reason : String)
  | unsupported (feature : String)
  | serialization (reason : String)
  deriving Repr

namespace BackendError

variable {α : Type}

def message : BackendError α → String
  | unsupportedGate gate position =>
    "Unsupported gate '" ++ gate ++ s!"' at instruction {position}"
  | incompatibleCircuit reason => "Incompatible circuit: " ++ reason
  | execution activity _ => "Execution failed: " ++ activity
  | configuration reason => "Configuration error: " ++ reason
  | unavailable reason => "Backend not available: " ++ reason
  | jobNotFound id => "Job not found: " ++ id
  | jobFailed reason => "Job failed: " ++ reason
  | invalidShots reason => "Invalid shots: " ++ reason
  | unsupported feature => "Unsupported feature: " ++ feature
  | serialization reason => "Serialization error: " ++ reason

/-- Gates without an image keep their place; any other error makes the circuit incompatible. -/
def ofLowering : LoweringError → BackendError α
  | .unsupportedGate gate position => unsupportedGate gate position
  | e => incompatibleCircuit e.message

end BackendError

end KetSim

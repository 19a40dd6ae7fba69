import KetSim.Engine.Options

/-! # Engine errors -/
namespace KetSim

inductive EngineError where
  | qubitOutOfRange (qubit numQubits : Nat)
  | duplicateQubit (gate : String) (qubit : Nat)
  | tooManyQubits (numQubits : Nat)
  | allocation (numQubits : Nat)
  | sizeMismatch (circuit state : Nat)
  | deviceUnavailable (device : Engine.Device)
  deriving DecidableEq, Repr

def EngineError.message : EngineError → String
  | qubitOutOfRange q n => s!"Qubit {q} out of range for a {n}-qubit register"
  | duplicateQubit gate q => "Gate '" ++ gate ++ s!"' uses qubit {q} more than once"
  | tooManyQubits n => s!"A {n}-qubit register cannot be addressed"
  | allocation n => s!"Failed to allocate state for {n} qubits"
  | sizeMismatch circuit state => s!"Circuit acts on {circuit} qubits but the state has {state}"
  | deviceUnavailable device => "Device '" ++ device.text ++ "' is not available in this build"

end KetSim

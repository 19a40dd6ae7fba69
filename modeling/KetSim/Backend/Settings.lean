import KetSim.Engine.Options
import KetSim.Scalar

/-! # Settings

What an instance of a backend can be told: how states are represented and
evolved, how many qubits it takes, whether prepared circuits are kept, and the
seed of runs that bring none.
-/
namespace KetSim

inductive Representation where
  | stateVector | densityMatrix
  deriving DecidableEq, Repr

structure Settings where
  representation : Representation := .stateVector
  device : Engine.Device := .cpu
  precision : Engine.Precision := .double
  maxQubits : Nat := 24
  caching : Bool := true
  cacheCapacity : Nat := 256
  seed : Option UInt64 := none
  deriving DecidableEq, Repr

namespace Settings

def engineOptions (s : Settings) : Engine.Options := ⟨s.device, s.precision⟩

/-- The imaginary part that an expectation value may have. -/
def imaginaryTolerance {α : Type} [Scalar α] (s : Settings) : α :=
  match s.precision with
  | .double => 1 / Scalar.ofNat (10 ^ 10)
  | .single => 1 / Scalar.ofNat (10 ^ 5)

end Settings

end KetSim

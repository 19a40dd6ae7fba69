import KetSim.Backend.Settings
import KetSim.Lowering.Gate

/-! # Capabilities

What a backend says about itself.
-/
namespace KetSim

/-- Names of accepted gates by arity. -/
structure GateSet where
  singleQubit : List String
  twoQubit : List String
  threeQubit : List String
  deriving DecidableEq, Repr

namespace GateSet

def contains (s : GateSet) (gate : String) : Bool :=
  s.singleQubit.contains gate || s.twoQubit.contains gate || s.threeQubit.contains gate

def size (s : GateSet) : Nat := s.singleQubit.length + s.twoQubit.length + s.threeQubit.length

def isEmpty (s : GateSet) : Bool := s.size == 0

def supported : GateSet :=
  let ofArity (n : Nat) : List String :=
    (StandardGate.supported.filter (·.numQubits == n)).map StandardGate.name
  ⟨ofArity 1, ofArity 2, ofArity 3⟩

end GateSet

structure Capabilities where
  name : String
  numQubits : Nat
  gateSet : GateSet
  maxShots : Nat
  isSimulator : Bool
  features : List String
  deriving DecidableEq, Repr

namespace Capabilities

def simulator (name : String) (numQubits : Nat) (gateSet : GateSet) : Capabilities :=
  ⟨name, numQubits, gateSet, 1000000, true, []⟩

def withFeature (c : Capabilities) (feature : String) : Capabilities :=
  { c with features := c.features ++ [feature] }

def hasFeature (c : Capabilities) (feature : String) : Bool := c.features.contains feature

end Capabilities

def Representation.feature : Representation → String
  | stateVector => "statevector"
  | densityMatrix => "density_matrix"

def Settings.capabilities (s : Settings) (name : String) : Capabilities :=
  let base := (((Capabilities.simulator name s.maxQubits .supported).withFeature "shots").withFeature
    "expectation").withFeature s.representation.feature
  match s.device with
  | .cpu => base
  | .gpu => base.withFeature "gpu"

end KetSim

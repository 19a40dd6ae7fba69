import KetSim.Circuit.Key
import KetSim.Lowering.Compiled
import KetSim.Text.Quoted

/-! # Prepared circuits

A circuit that a backend has accepted, with its form for the engine.
-/
namespace KetSim

/-- The form of a circuit for an engine; other engines have forms of their own. -/
inductive Payload (α : Type) where
  | compiled (c : Compiled α)
  | foreign
  deriving BEq

structure Prepared (α : Type) where
  key : CircuitKey
  backend : String
  source : Circuit α
  payload : Payload α
  /-- The number of the preparation that made the payload. -/
  ticket : Nat

namespace Prepared

variable {α : Type}

def compiled? (p : Prepared α) : Option (Compiled α) :=
  match p.payload with
  | .compiled c => some c
  | .foreign => none

/-- Whether both hold the payload of one preparation. -/
def sharesPayload (p q : Prepared α) : Bool := p.ticket == q.ticket

def description (p : Prepared α) : String :=
  "PreparedCircuit \x7b key: CircuitKey(" ++ toString p.key.value.toNat ++ "), backend: " ++
    Text.quoted p.backend ++ ", circuit: " ++ Text.quoted p.source.name ++ ", num_qubits: " ++
    toString p.source.numQubits ++ ", .. \x7d"

end Prepared

end KetSim

import KetSim.Engine.Error

/-! # Engine gates

The gates that the engine executes, on register indices and with angles in
radians. A rotation by `θ` about an axis is `exp(+i·θ/2·P)` for the Pauli matrix
`P` of the axis.
-/
namespace KetSim.Engine

inductive Gate (α : Type) where
  | x (q : Nat)
  | y (q : Nat)
  | z (q : Nat)
  | h (q : Nat)
  | s (q : Nat)
  | sdag (q : Nat)
  | t (q : Nat)
  | tdag (q : Nat)
  | sqrtX (q : Nat)
  | sqrtXdag (q : Nat)
  | rx (q : Nat) (theta : α)
  | ry (q : Nat) (theta : α)
  | rz (q : Nat) (theta : α)
  | u1 (q : Nat) (lam : α)
  | u2 (q : Nat) (phi lam : α)
  | u3 (q : Nat) (theta phi lam : α)
  | cnot (control target : Nat)
  | cz (control target : Nat)
  | swap (a b : Nat)
  | toffoli (control1 control2 target : Nat)
  | fredkin (control target1 target2 : Nat)
  deriving BEq, Repr

namespace Gate

variable {α : Type}

def name : Gate α → String
  | x _ => "X"
  | y _ => "Y"
  | z _ => "Z"
  | h _ => "H"
  | s _ => "S"
  | sdag _ => "Sdag"
  | t _ => "T"
  | tdag _ => "Tdag"
  | sqrtX _ => "sqrtX"
  | sqrtXdag _ => "sqrtXdag"
  | rx _ _ => "X-rotation"
  | ry _ _ => "Y-rotation"
  | rz _ _ => "Z-rotation"
  | u1 _ _ => "U1"
  | u2 _ _ _ => "U2"
  | u3 _ _ _ _ => "U3"
  | cnot _ _ => "CNOT"
  | cz _ _ => "CZ"
  | swap _ _ => "SWAP"
  | toffoli _ _ _ => "Toffoli"
  | fredkin _ _ _ => "Fredkin"

/-- The qubits that a gate acts on, controls first. -/
def qubits : Gate α → List Nat
  | x q | y q | z q | h q | s q | sdag q | t q | tdag q | sqrtX q | sqrtXdag q => [q]
  | rx q _ | ry q _ | rz q _ | u1 q _ | u2 q _ _ | u3 q _ _ _ => [q]
  | cnot c q | cz c q => [c, q]
  | swap a b => [a, b]
  | toffoli c d q => [c, d, q]
  | fredkin c a b => [c, a, b]

def angles : Gate α → List α
  | rx _ a | ry _ a | rz _ a | u1 _ a => [a]
  | u2 _ a b => [a, b]
  | u3 _ a b c => [a, b, c]
  | _ => []

end Gate

/-- Checks that qubits lie in a register and differ from the ones before them. -/
def checkDistinct (gate : String) (numQubits : Nat) (seen : List Nat) :
    List Nat → Except EngineError Unit
  | [] => .ok ()
  | q :: rest =>
    if numQubits ≤ q then .error (.qubitOutOfRange q numQubits)
    else if q ∈ seen then .error (.duplicateQubit gate q)
    else checkDistinct gate numQubits (q :: seen) rest

def Gate.check {α : Type} (g : Gate α) (numQubits : Nat) : Except EngineError Unit :=
  checkDistinct g.name numQubits [] g.qubits

end KetSim.Engine

import KetSim.Engine.Program
import KetSim.Lowering.Layout

/-! # Lowering circuits

Circuits become programs of the engine on the same number of qubits. Angles turn
from half turns into radians, and rotations change their sense. A controlled `Y`
is a controlled `X` between two phase gates on the target. Measurements and
barriers leave no gate.
-/
namespace KetSim

/-- The gates with an image in the engine. -/
def StandardGate.supported : List StandardGate :=
  [x, y, z, h, s, sdg, t, tdg, sx, sxdg, rx, ry, rz, u1, u2, u3, cx, cy, cz, swap, ccx, cswap]

def StandardGate.isSupported (g : StandardGate) : Bool := g ∈ supported

def GateKind.isSupported : GateKind → Bool
  | standard g => g.isSupported
  | custom _ => false

variable {α : Type} [Scalar α]

/-- The image of a gate on engine indices, with angles in radians. -/
def StandardGate.image : StandardGate → List Nat → List α → Option (List (Engine.Gate α))
  | x, q :: _, _ => some [.x q]
  | y, q :: _, _ => some [.y q]
  | z, q :: _, _ => some [.z q]
  | h, q :: _, _ => some [.h q]
  | s, q :: _, _ => some [.s q]
  | sdg, q :: _, _ => some [.sdag q]
  | t, q :: _, _ => some [.t q]
  | tdg, q :: _, _ => some [.tdag q]
  | sx, q :: _, _ => some [.sqrtX q]
  | sxdg, q :: _, _ => some [.sqrtXdag q]
  | rx, q :: _, a :: _ => some [.rx q (-a)]
  | ry, q :: _, a :: _ => some [.ry q (-a)]
  | rz, q :: _, a :: _ => some [.rz q (-a)]
  | u1, q :: _, a :: _ => some [.u1 q a]
  | u2, q :: _, a :: b :: _ => some [.u2 q a b]
  | u3, q :: _, a :: b :: c :: _ => some [.u3 q a b c]
  | cx, c :: q :: _, _ => some [.cnot c q]
  | cy, c :: q :: _, _ => some [.sdag q, .cnot c q, .s q]
  | cz, c :: q :: _, _ => some [.cz c q]
  | swap, a :: b :: _, _ => some [.swap a b]
  | ccx, c :: d :: q :: _, _ => some [.toffoli c d q]
  | cswap, c :: a :: b :: _, _ => some [.fredkin c a b]
  | _, _, _ => none

namespace Lowering

variable [DecimalText α]

/-- An angle in radians; an angle without a value is reported by its symbols, or by its text if it
has none. -/
def radians (gate : String) (position : Nat) (e : Angle α) : Except LoweringError α :=
  match e.radians with
  | some v => .ok v
  | none =>
    let blame := if e.symbols.isEmpty then e.text else ", ".intercalate e.symbols
    .error (.unboundParameter gate position blame)

/-- The image of a gate at a position of a circuit. -/
def gate (layout : QubitLayout) (position : Nat) (g : Gate α) (qubits : List QubitId) :
    Except LoweringError (List (Engine.Gate α)) :=
  let unsupported := LoweringError.unsupportedGate g.name position
  match g.kind with
  | .custom _ => .error unsupported
  | .standard op =>
    if !op.isSupported then .error unsupported
    else do
      let angles ← g.params.mapM (radians g.name position)
      let indices ← qubits.mapM layout.index
      match op.image indices angles with
      | some gates => .ok gates
      | none => .error unsupported

def instruction (layout : QubitLayout) (position : Nat) (i : Instruction α) :
    Except LoweringError (List (Engine.Gate α)) :=
  match i.kind with
  | .gate g => gate layout position g i.qubits
  | .measure | .barrier => .ok []
  | .reset => .error (.unsupportedGate i.name position)

def addAll (gates : List (Engine.Gate α)) (p : Engine.Program α) :
    Except LoweringError (Engine.Program α) :=
  gates.foldlM (fun p g => (p.add g).mapError LoweringError.engine) p

def appendFrom (layout : QubitLayout) :
    Nat → List (Instruction α) → Engine.Program α → Except LoweringError (Engine.Program α)
  | _, [], p => .ok p
  | position, i :: rest, p => do
    let gates ← instruction layout position i
    let p ← addAll gates p
    appendFrom layout (position + 1) rest p

end Lowering

/-- The program of a circuit, or the error of the first instruction without an image. -/
def Circuit.lower [DecimalText α] (numbering : Numbering) (c : Circuit α) :
    Except LoweringError (Engine.Program α) :=
  Lowering.appendFrom (.ofCircuit numbering c) 0 c.instructions (.empty c.numQubits)

end KetSim

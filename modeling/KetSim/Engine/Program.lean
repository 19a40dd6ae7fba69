import KetSim.Engine.State

/-! # Engine programs

A list of gates on a register of fixed size. Running one applies the gates in
order and stops at the first gate that does not fit.
-/
namespace KetSim.Engine

structure Program (α : Type) where
  numQubits : Nat
  gates : List (Gate α)
  deriving BEq, Repr

namespace Program

variable {α : Type}

def empty (numQubits : Nat) : Program α := ⟨numQubits, []⟩

def add (p : Program α) (g : Gate α) : Except EngineError (Program α) := do
  g.check p.numQubits
  .ok { p with gates := p.gates ++ [g] }

variable [Scalar α]

/-- The state after the gates before the first unfit one, with the error of that one. -/
def applyGates : List (Gate α) → State α → State α × Option EngineError
  | [], s => (s, none)
  | g :: rest, s =>
    match s.applyGate g with
    | .ok s' => applyGates rest s'
    | .error e => (s, some e)

/-- The state after a run, with the error that stopped it. -/
def run (p : Program α) (s : State α) : State α × Option EngineError :=
  if s.numQubits ≠ p.numQubits then (s, some (.sizeMismatch p.numQubits s.numQubits))
  else applyGates p.gates s

end Program

end KetSim.Engine

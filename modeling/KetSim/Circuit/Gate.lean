import KetSim.Angle

/-! # Gates

The built-in gates with their names and arities, and gates known by name only.
Every angle is in half turns.
-/
namespace KetSim

inductive StandardGate where
  | x | y | z | h | s | sdg | t | tdg | sx | sxdg
  | rx | ry | rz | u1 | u2 | u3
  | cx | cy | cz | ch | crz | cp | swap | iswap | zzPhase
  | ccx | cswap
  deriving DecidableEq, Repr

namespace StandardGate

def all : List StandardGate :=
  [x, y, z, h, s, sdg, t, tdg, sx, sxdg, rx, ry, rz, u1, u2, u3, cx, cy, cz, ch, crz, cp, swap,
    iswap, zzPhase, ccx, cswap]

def name : StandardGate → String
  | x => "x"
  | y => "y"
  | z => "z"
  | h => "h"
  | s => "s"
  | sdg => "sdg"
  | t => "t"
  | tdg => "tdg"
  | sx => "sx"
  | sxdg => "sxdg"
  | rx => "rx"
  | ry => "ry"
  | rz => "rz"
  | u1 => "u1"
  | u2 => "u2"
  | u3 => "u3"
  | cx => "cx"
  | cy => "cy"
  | cz => "cz"
  | ch => "ch"
  | crz => "crz"
  | cp => "cp"
  | swap => "swap"
  | iswap => "iswap"
  | zzPhase => "zzphase"
  | ccx => "ccx"
  | cswap => "cswap"

def numQubits : StandardGate → Nat
  | x | y | z | h | s | sdg | t | tdg | sx | sxdg | rx | ry | rz | u1 | u2 | u3 => 1
  | cx | cy | cz | ch | crz | cp | swap | iswap | zzPhase => 2
  | ccx | cswap => 3

def numParams : StandardGate → Nat
  | rx | ry | rz | u1 | crz | cp | zzPhase => 1
  | u2 => 2
  | u3 => 3
  | _ => 0

end StandardGate

/-- A gate that only its name and arity describe. -/
structure CustomGate where
  name : String
  numQubits : Nat
  deriving DecidableEq, Repr

inductive GateKind where
  | standard (gate : StandardGate)
  | custom (gate : CustomGate)
  deriving DecidableEq, Repr

namespace GateKind

def name : GateKind → String
  | standard g => g.name
  | custom g => g.name

def numQubits : GateKind → Nat
  | standard g => g.numQubits
  | custom g => g.numQubits

def standard? : GateKind → Option StandardGate
  | standard g => some g
  | custom _ => none

end GateKind

structure Gate (α : Type) where
  kind : GateKind
  params : List (Angle α)
  deriving BEq, Repr

namespace Gate

variable {α : Type}

def fixed (gate : StandardGate) : Gate α := ⟨.standard gate, []⟩

def name (g : Gate α) : String := g.kind.name

def numQubits (g : Gate α) : Nat := g.kind.numQubits

def isParameterized (g : Gate α) : Bool := g.params.any Angle.isSymbolic

def bind (values : Binding α) (g : Gate α) : Gate α :=
  { g with params := g.params.map (·.bind values) }

end Gate

end KetSim

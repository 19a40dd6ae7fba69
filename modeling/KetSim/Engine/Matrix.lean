import KetSim.Cplx
import KetSim.Engine.Gate

/-! # Gate matrices

The dense matrix of every gate. Bit `k` of a row or column index is the state of
the `k`-th qubit of the gate.
-/
namespace KetSim.Engine

variable {α : Type} [Scalar α]

/-- A matrix given by its entries at row and column. -/
abbrev Entries (α : Type) := Nat → Nat → Cplx α

def rows2 (a b c d : Cplx α) : Entries α := fun row col =>
  if row = 0 then (if col = 0 then a else b) else (if col = 0 then c else d)

/-- A matrix that multiplies the second basis state only. -/
def diagonal (lower : Cplx α) : Entries α := rows2 1 0 0 lower

def pauliX : Entries α := rows2 0 1 1 0

def pauliY : Entries α := rows2 0 ⟨0, -1⟩ ⟨0, 1⟩ 0

def unitary3 (theta phi lam : α) : Entries α :=
  let c := Scalar.cos (theta / Scalar.two)
  let s := Scalar.sin (theta / Scalar.two)
  rows2 (Cplx.ofReal c) (-Cplx.polar s lam) (Cplx.polar s phi) (Cplx.polar c (phi + lam))

/-- A one-qubit matrix under controls in the low bits. -/
def controlled (controls : Nat) (base : Entries α) : Entries α := fun row col =>
  let mask := 2 ^ controls - 1
  if row &&& mask = mask then
    if col &&& mask = mask then base (row >>> controls) (col >>> controls) else 0
  else if row = col then 1
  else 0

/-- The matrix that sends each basis state `col` to `f col`. -/
def permutation (f : Nat → Nat) : Entries α := fun row col => if f col = row then 1 else 0

/-- Exchanges bits `a` and `b`. -/
def swapBits (a b i : Nat) : Nat :=
  if i.testBit a = i.testBit b then i else i ^^^ (2 ^ a ||| 2 ^ b)

def Gate.entries : Gate α → Entries α
  | .x _ => pauliX
  | .y _ => pauliY
  | .z _ => diagonal ⟨-1, 0⟩
  | .h _ =>
    let r : Cplx α := Cplx.ofReal (Scalar.sqrt Scalar.half)
    rows2 r r r (-r)
  | .s _ => diagonal ⟨0, 1⟩
  | .sdag _ => diagonal ⟨0, -1⟩
  | .t _ => diagonal (Cplx.cis (Scalar.pi / Scalar.ofNat 4))
  | .tdag _ => diagonal (Cplx.cis (-(Scalar.pi / Scalar.ofNat 4)))
  | .sqrtX _ =>
    rows2 ⟨Scalar.half, Scalar.half⟩ ⟨Scalar.half, -Scalar.half⟩
      ⟨Scalar.half, -Scalar.half⟩ ⟨Scalar.half, Scalar.half⟩
  | .sqrtXdag _ =>
    rows2 ⟨Scalar.half, -Scalar.half⟩ ⟨Scalar.half, Scalar.half⟩
      ⟨Scalar.half, Scalar.half⟩ ⟨Scalar.half, -Scalar.half⟩
  | .rx _ theta =>
    let c := Scalar.cos (theta / Scalar.two)
    let s := Scalar.sin (theta / Scalar.two)
    rows2 ⟨c, 0⟩ ⟨0, s⟩ ⟨0, s⟩ ⟨c, 0⟩
  | .ry _ theta =>
    let c := Scalar.cos (theta / Scalar.two)
    let s := Scalar.sin (theta / Scalar.two)
    rows2 ⟨c, 0⟩ ⟨s, 0⟩ ⟨-s, 0⟩ ⟨c, 0⟩
  | .rz _ theta => rows2 (Cplx.cis (theta / Scalar.two)) 0 0 (Cplx.cis (-theta / Scalar.two))
  | .u1 _ lam => diagonal (Cplx.cis lam)
  | .u2 _ phi lam => unitary3 (Scalar.pi / Scalar.two) phi lam
  | .u3 _ theta phi lam => unitary3 theta phi lam
  | .cnot _ _ => controlled 1 pauliX
  | .cz _ _ => controlled 1 (diagonal ⟨-1, 0⟩)
  | .swap _ _ => permutation (swapBits 0 1)
  | .toffoli _ _ _ => controlled 2 pauliX
  | .fredkin _ _ _ => permutation fun i => if i.testBit 0 then swapBits 1 2 i else i

def tabulate (dim : Nat) (entries : Entries α) : Array (Cplx α) :=
  Array.ofFn fun k : Fin (dim * dim) => entries (k.val / dim) (k.val % dim)

def Gate.matrix (g : Gate α) : Array (Cplx α) := tabulate (2 ^ g.qubits.length) g.entries

end KetSim.Engine

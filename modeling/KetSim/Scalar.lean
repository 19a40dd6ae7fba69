import KetSim.Power

/-! # Scalars

The numbers that angles, coefficients and amplitudes are made of. Circuits,
gates and states are written over this class, so one engine runs on machine
floats and is reasoned about over any other arithmetic. The class promises no
law: order of operations in the definitions is the order of evaluation.
-/
namespace KetSim

/-- Arithmetic, comparison and the elementary functions that gates need. -/
class Scalar (α : Type) extends Zero α, One α, Add α, Sub α, Mul α, Div α, Neg α where
  ofNat : Nat → α
  pi : α
  sqrt : α → α
  sin : α → α
  cos : α → α
  /-- True of every zero, signed or not. -/
  isZero : α → Bool
  less : α → α → Bool
  atMost : α → α → Bool
  /-- Rounds to the narrower format of the single-precision engine. -/
  toSingle : α → α

namespace Scalar

variable {α : Type} [Scalar α]

def two : α := ofNat 2

def half : α := 1 / two

/-- One half turn of an angle is `π` radians. -/
def halfTurn (x : α) : α := x * pi

def abs (x : α) : α := if less x 0 then -x else x

/-- Negative and unordered values count as zero. -/
def clamp (x : α) : α := if less 0 x then x else 0

end Scalar

instance : Scalar Float where
  zero := 0.0
  one := 1.0
  ofNat := Float.ofNat
  pi := 3.141592653589793
  sqrt := Float.sqrt
  sin := Float.sin
  cos := Float.cos
  isZero x := x == 0.0
  less x y := x < y
  atMost x y := x ≤ y
  toSingle x := x.toFloat32.toFloat

end KetSim

import KetSim.Scalar

/-! # Complex numbers

Pairs of scalars with the operations of amplitudes and matrix entries.
-/
namespace KetSim

structure Cplx (α : Type) where
  re : α
  im : α
  deriving BEq, Repr

namespace Cplx

variable {α : Type} [Scalar α]

def zero : Cplx α := ⟨0, 0⟩

def one : Cplx α := ⟨1, 0⟩

def ofReal (x : α) : Cplx α := ⟨x, 0⟩

def add (a b : Cplx α) : Cplx α := ⟨a.re + b.re, a.im + b.im⟩

def sub (a b : Cplx α) : Cplx α := ⟨a.re - b.re, a.im - b.im⟩

def neg (a : Cplx α) : Cplx α := ⟨-a.re, -a.im⟩

def mul (a b : Cplx α) : Cplx α := ⟨a.re * b.re - a.im * b.im, a.re * b.im + a.im * b.re⟩

instance : Zero (Cplx α) := ⟨zero⟩

instance : One (Cplx α) := ⟨one⟩

instance : Add (Cplx α) := ⟨add⟩

instance : Sub (Cplx α) := ⟨sub⟩

instance : Neg (Cplx α) := ⟨neg⟩

instance : Mul (Cplx α) := ⟨mul⟩

instance : Inhabited (Cplx α) := ⟨zero⟩

def scale (x : α) (a : Cplx α) : Cplx α := ⟨x * a.re, x * a.im⟩

def conj (a : Cplx α) : Cplx α := ⟨a.re, -a.im⟩

def normSq (a : Cplx α) : α := a.re * a.re + a.im * a.im

/-- The number of modulus `r` at `angle` radians. -/
def polar (r angle : α) : Cplx α := ⟨r * Scalar.cos angle, r * Scalar.sin angle⟩

/-- The number of modulus one at `angle` radians. -/
def cis (angle : α) : Cplx α := polar 1 angle

def toSingle (a : Cplx α) : Cplx α := ⟨Scalar.toSingle a.re, Scalar.toSingle a.im⟩

/-- Sums from the left, starting at zero. -/
def sum (xs : List (Cplx α)) : Cplx α := xs.foldl (· + ·) 0

end Cplx

end KetSim

import KetSim.Power

/-! # Decimal numbers

A signed decimal is a natural number scaled by a power of ten. The normal form
has no trailing zero, so equal values other than the two zeros have one form.
-/
namespace KetSim

/-- The value `± digits · 10 ^ exponent`; zero keeps its sign. -/
structure Decimal where
  negative : Bool
  digits : Nat
  exponent : Int
  deriving DecidableEq, Repr

namespace Decimal

/-- Moves trailing zeros of the digits into the exponent. -/
def stripZeros (digits : Nat) (exponent : Int) : Nat × Int :=
  if digits ≠ 0 ∧ digits % 10 = 0 then stripZeros (digits / 10) (exponent + 1)
  else (digits, exponent)
termination_by digits
decreasing_by omega

def normalize (d : Decimal) : Decimal :=
  if d.digits = 0 then ⟨d.negative, 0, 0⟩
  else
    let (digits, exponent) := stripZeros d.digits d.exponent
    ⟨d.negative, digits, exponent⟩

def ofInt (n : Int) : Decimal := normalize ⟨decide (n < 0), n.natAbs, 0⟩

/-- Where a value goes that lies half way between two neighbours. -/
inductive Tie where
  | toEven
  | away
  deriving DecidableEq, Repr

/-- Whether a tie above `floor` goes up. -/
def Tie.goesUp (tie : Tie) (floor : Nat) : Bool :=
  match tie with
  | .toEven => floor % 2 == 1
  | .away => true

inductive Reading where
  | nan
  | infinite (negative : Bool)
  | finite (value : Decimal)
  deriving DecidableEq, Repr

end Decimal

/-- Scalars that can be written in decimal and read back. Where two decimals are equally good, the
tie says which one is written. -/
class DecimalText (α : Type) where
  reading : Decimal.Tie → α → Decimal.Reading
  ofDecimal : Decimal → α

end KetSim

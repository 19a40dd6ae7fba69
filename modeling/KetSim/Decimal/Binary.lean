import KetSim.Power

/-! # Binary fractions

The 64-bit binary format, taken apart into a sign and a natural number scaled
by a power of two.
-/
namespace KetSim.Binary

/-- The value `mantissa · 2 ^ exponent`. At a power of two the gap to the next
lower number of the format is half the gap to the next higher one. -/
structure Magnitude where
  mantissa : Nat
  exponent : Int
  narrowBelow : Bool
  deriving DecidableEq, Repr

inductive Reading where
  | nan
  | infinite (negative : Bool)
  | finite (negative : Bool) (magnitude : Magnitude)
  deriving DecidableEq, Repr

/-- Decodes the sign bit, the eleven exponent bits and the 52 fraction bits. -/
def ofBits (bits : UInt64) : Reading :=
  let b := bits.toNat
  let negative := b.testBit 63
  let biased : Nat := b / 2 ^ 52 % 2 ^ 11
  let fraction : Nat := b % 2 ^ 52
  if biased = 2047 then
    if fraction = 0 then .infinite negative else .nan
  else if biased = 0 then .finite negative ⟨fraction, -1074, false⟩
  else .finite negative ⟨2 ^ 52 + fraction, (biased : Int) - 1075, fraction == 0 && 1 < biased⟩

end KetSim.Binary

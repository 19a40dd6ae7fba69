import KetSim.Decimal.Basic
import KetSim.Decimal.Binary

/-! # Shortest decimal

The decimal with the fewest digits that reads back as a given binary number,
and among those the one nearest to it, where two may be equally near. All comparisons are between integers:
the value, the ends of its rounding interval and the candidates are brought to
one common denominator.
-/
namespace KetSim.Decimal

/-- A positive value and the interval of reals that round to it, all as
numerators over one denominator. -/
structure Window where
  low : Nat
  value : Nat
  high : Nat
  denominator : Nat
  /-- Whether the ends of the interval round to the value too. -/
  closed : Bool

namespace Window

/-- The interval of the reals that are nearer to the number than to its neighbours. -/
def ofMagnitude (m : Binary.Magnitude) : Window :=
  let unit := 2 ^ m.exponent.toNat
  let below := if m.narrowBelow then 1 else 2
  ⟨(4 * m.mantissa - below) * unit, 4 * m.mantissa * unit, (4 * m.mantissa + 2) * unit,
    4 * 2 ^ (-m.exponent).toNat, m.mantissa % 2 == 0⟩

def holds (w : Window) (numerator denominator : Nat) : Bool :=
  let x := numerator * w.denominator
  if w.closed then w.low * denominator ≤ x && x ≤ w.high * denominator
  else w.low * denominator < x && x < w.high * denominator

/-- The multiple of `10 ^ exponent` in the interval that is nearest to the value. -/
def nearestOn (w : Window) (tie : Tie) (exponent : Int) : Option Nat :=
  let up := 10 ^ exponent.toNat
  let down := 10 ^ (-exponent).toNat
  let numerator := w.value * down
  let denominator := w.denominator * up
  let floor := numerator / denominator
  let lowHit := w.holds (floor * up) down
  let highHit := w.holds ((floor + 1) * up) down
  if lowHit && highHit then
    let rest := 2 * (numerator % denominator)
    if denominator < rest || (rest = denominator && tie.goesUp floor) then some (floor + 1)
    else some floor
  else if lowHit && floor ≠ 0 then some floor
  else if highHit then some (floor + 1)
  else none

/-- Tries ever finer grids, coarsest first. -/
def search (w : Window) (tie : Tie) : Nat → Int → Nat × Int
  | 0, exponent => (w.value * 10 ^ (-exponent).toNat / (w.denominator * 10 ^ exponent.toNat), exponent)
  | fuel + 1, exponent =>
    match w.nearestOn tie exponent with
    | some digits => (digits, exponent)
    | none => search w tie fuel (exponent - 1)

end Window

/-- An exponent `e` with `value < 10 ^ e`, at most a few above the least one. -/
def exponentAbove (w : Window) : Int :=
  let bits : Int := (w.value.log2 : Int) - (w.denominator.log2 : Int)
  (bits + 1) * 30103 / 100000 + 2

/-- Seventeen digits always suffice, so the search ends before its fuel does. -/
def shortest (tie : Tie) (m : Binary.Magnitude) : Nat × Int :=
  if m.mantissa = 0 then (0, 0)
  else
    let w := Window.ofMagnitude m
    let (digits, exponent) := w.search tie 24 (exponentAbove w)
    stripZeros digits exponent

end KetSim.Decimal

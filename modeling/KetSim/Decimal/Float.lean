import KetSim.Decimal.Shortest
import KetSim.Decimal.Layout

/-! # Machine floats in decimal

A float is written with its shortest decimal and read with correct rounding.
-/
namespace KetSim

def Decimal.ofFloat (tie : Decimal.Tie) (x : Float) : Decimal.Reading :=
  match Binary.ofBits x.toBits with
  | .nan => .nan
  | .infinite negative => .infinite negative
  | .finite negative m =>
    let (digits, exponent) := Decimal.shortest tie m
    .finite ⟨negative, digits, exponent⟩

def Decimal.toFloat (d : Decimal) : Float :=
  let size := Float.ofScientific d.digits (decide (d.exponent < 0)) d.exponent.natAbs
  if d.negative then -size else size

instance : DecimalText Float := ⟨Decimal.ofFloat, Decimal.toFloat⟩

end KetSim

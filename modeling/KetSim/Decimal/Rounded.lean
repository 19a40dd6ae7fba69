import KetSim.Decimal.Basic
import KetSim.Decimal.Binary

/-! # Rounded decimals

Texts with a given number of places, or of digits before an exponent. The exact
binary value is rounded once, and a tie goes to the even neighbour.
-/
namespace KetSim.Decimal

/-- The integer nearest to `numerator / denominator`. -/
def roundDiv (tie : Tie) (numerator denominator : Nat) : Nat :=
  let q := numerator / denominator
  let rest := 2 * (numerator % denominator)
  if denominator < rest || (rest = denominator && tie.goesUp q) then q + 1 else q

/-- `magnitude · 10 ^ power` rounded to an integer, a tie to the even one. -/
def scaled (m : Binary.Magnitude) (power : Int) : Nat :=
  roundDiv .toEven (m.mantissa * 2 ^ m.exponent.toNat * 10 ^ power.toNat)
    (2 ^ (-m.exponent).toNat * 10 ^ (-power).toNat)

def padLeft (width : Nat) (digits : List Char) : List Char :=
  List.replicate (width - digits.length) '0' ++ digits

/-- Splits off the last `places` digits behind a point. -/
def withPlaces (places n : Nat) : List Char :=
  let digits := padLeft (places + 1) (Nat.toDigits 10 n)
  let whole := digits.length - places
  if places = 0 then digits else digits.take whole ++ '.' :: digits.drop whole

def signText (plus negative : Bool) : List Char :=
  if negative then ['-'] else if plus then ['+'] else []

/-- The value with `places` digits after the point, and a plus sign if asked for. -/
def fixed (plus : Bool) (places : Nat) (x : Float) : String :=
  match Binary.ofBits x.toBits with
  | .nan => "NaN"
  | .infinite negative => String.ofList (signText plus negative ++ "inf".toList)
  | .finite negative m =>
    String.ofList (signText plus negative ++ withPlaces places (scaled m places))

/-- The exponent of the leading decimal digit of a positive value: the estimate from
the binary logarithm is at most one too small. -/
def leadingExponent (m : Binary.Magnitude) : Int :=
  let numerator := m.mantissa * 2 ^ m.exponent.toNat
  let denominator := 2 ^ (-m.exponent).toNat
  let estimate : Int := ((m.mantissa.log2 : Int) + m.exponent) * 30103 / 100000 - 1
  let reaches (e : Int) : Bool := denominator * 10 ^ e.toNat ≤ numerator * 10 ^ (-e).toNat
  ([estimate + 2, estimate + 1, estimate].find? reaches).getD (estimate - 1)

/-- The value with one digit before the point, `places` after it, and an exponent. -/
def exponential (places : Nat) (x : Float) : String :=
  match Binary.ofBits x.toBits with
  | .nan => "NaN"
  | .infinite negative => String.ofList (signText false negative ++ "inf".toList)
  | .finite negative m =>
    let (n, e) : Nat × Int :=
      if m.mantissa = 0 then (0, 0)
      else
        let e := leadingExponent m
        let n := scaled m (places - e)
        if n = 10 ^ (places + 1) then (10 ^ places, e + 1) else (n, e)
    let power := (if e < 0 then ['-'] else []) ++ Nat.toDigits 10 e.natAbs
    String.ofList (signText false negative ++ withPlaces places n ++ 'e' :: power)

end KetSim.Decimal

import KetSim.Decimal.Basic

/-! # Layouts of decimals

A layout says which exponents are written out in full, whether a whole number
shows a fraction, how an exponent is marked, and which of two equally near
decimals is written.
-/
namespace KetSim.Decimal

structure Layout where
  /-- Which exponents of the leading digit are written without a power of ten. -/
  positional : Int → Bool
  /-- Whether a whole number written in full ends in a zero fraction. -/
  fraction : Bool
  /-- Whether an exponent that is not negative carries a plus sign. -/
  plus : Bool
  /-- Where a tie between two shortest decimals goes. -/
  tie : Tie

namespace Layout

/-- Everything in full, whole numbers bare. -/
def plain : Layout := ⟨fun _ => true, false, false, .away⟩

/-- Always with an exponent. -/
def scientific : Layout := ⟨fun _ => false, false, false, .away⟩

/-- In full from `10 ^ -5` up to below `10 ^ 16`, with a fraction; otherwise with a signed exponent. -/
def data : Layout := ⟨fun e => decide (-5 ≤ e) && decide (e < 16), true, true, .toEven⟩

end Layout

def zeros (n : Nat) : List Char := List.replicate n '0'

/-- Writes `0.digits · 10 ^ point` in full. -/
def inFull (fraction : Bool) (digits : List Char) (point : Int) : List Char :=
  if point ≤ 0 then ['0', '.'] ++ zeros (-point).toNat ++ digits
  else
    let whole := digits.take point.toNat ++ zeros (point.toNat - digits.length)
    match digits.drop point.toNat with
    | [] => if fraction then whole ++ ['.', '0'] else whole
    | rest => whole ++ '.' :: rest

/-- Writes the digits with one before the point and the exponent after them. -/
def withExponent (plus : Bool) (digits : List Char) (exponent : Int) : List Char :=
  let sign := if exponent < 0 then ['-'] else if plus then ['+'] else []
  let power := 'e' :: sign ++ Nat.toDigits 10 exponent.natAbs
  match digits with
  | first :: next :: rest => first :: '.' :: next :: rest ++ power
  | _ => digits ++ power

def Layout.write (layout : Layout) (d : Decimal) : List Char :=
  let digits := Nat.toDigits 10 d.digits
  let point : Int := digits.length + d.exponent
  let body :=
    if layout.positional (point - 1) then inFull layout.fraction digits point
    else withExponent layout.plus digits (point - 1)
  if d.negative then '-' :: body else body

def Reading.text (layout : Layout) : Reading → String
  | .nan => "NaN"
  | .infinite negative => if negative then "-inf" else "inf"
  | .finite d => String.ofList (layout.write d)

def Layout.textOf {α : Type} [DecimalText α] (layout : Layout) (x : α) : String :=
  (DecimalText.reading layout.tie x).text layout

def plainText {α : Type} [DecimalText α] (x : α) : String := Layout.plain.textOf x

def scientificText {α : Type} [DecimalText α] (x : α) : String := Layout.scientific.textOf x

end KetSim.Decimal

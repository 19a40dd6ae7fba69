import KetSim.Decimal.Layout

/-! # JSON values

Whole numbers and other numbers are kept apart: a whole number fits a 64-bit
word with or without sign, everything else is a decimal. Objects keep the order
in which their members were written.
-/
namespace KetSim

inductive Json where
  | null
  | bool (b : Bool)
  | int (n : Int)
  | decimal (d : Decimal)
  | str (s : String)
  | arr (items : List Json)
  | obj (members : List (String × Json))
  deriving Inhabited, Repr

namespace Json

/-- The whole numbers that keep their own form. -/
def isWord (n : Int) : Bool := decide (-(2 ^ 63) ≤ n) && decide (n < 2 ^ 64)

def ofNat (n : Nat) : Json := .int n

def ofOption {β : Type} (f : β → Json) : Option β → Json
  | none => .null
  | some x => f x

def ofList {β : Type} (f : β → Json) (xs : List β) : Json := .arr (xs.map f)

def pair (a b : Json) : Json := .arr [a, b]

/-- Scalars without a decimal have no JSON form and become `null`. -/
def ofScalar {α : Type} [DecimalText α] (x : α) : Json :=
  match DecimalText.reading Decimal.Layout.data.tie x with
  | .finite d => .decimal d
  | _ => .null

def get? (key : String) : Json → Option Json
  | .obj members => members.lookup key
  | _ => none

end Json

end KetSim

import KetSim.Decimal.Layout
import KetSim.Scalar
import KetSim.Text.NameSet

/-! # Angles

Angle expressions in half turns: `1` is a rotation by `π`. An expression may
hold named symbols, which are bound before a circuit is executed.
-/
namespace KetSim

inductive Angle (α : Type) where
  | constant (value : α)
  | symbol (name : String)
  | neg (e : Angle α)
  | add (a b : Angle α)
  | sub (a b : Angle α)
  | mul (a b : Angle α)
  | div (a b : Angle α)
  deriving BEq, Repr

/-- Values for symbols; a symbol without one stays free. -/
abbrev Binding (α : Type) := String → Option α

namespace Angle

variable {α : Type}

def isSymbolic : Angle α → Bool
  | constant _ => false
  | symbol _ => true
  | neg e => e.isSymbolic
  | add a b | sub a b | mul a b | div a b => a.isSymbolic || b.isSymbolic

/-- The value in half turns, unless a symbol is free or a divisor is zero. -/
def halfTurns [Scalar α] : Angle α → Option α
  | constant v => some v
  | symbol _ => none
  | neg e => do
    let v ← e.halfTurns
    some (-v)
  | add a b => do
    let x ← a.halfTurns
    let y ← b.halfTurns
    some (x + y)
  | sub a b => do
    let x ← a.halfTurns
    let y ← b.halfTurns
    some (x - y)
  | mul a b => do
    let x ← a.halfTurns
    let y ← b.halfTurns
    some (x * y)
  | div a b => do
    let y ← b.halfTurns
    if Scalar.isZero y then none
    else do
      let x ← a.halfTurns
      some (x / y)

def radians [Scalar α] (e : Angle α) : Option α := e.halfTurns.map Scalar.halfTurn

def collectSymbols : Angle α → NameSet → NameSet
  | constant _, s => s
  | symbol name, s => s.insert name
  | neg e, s => e.collectSymbols s
  | add a b, s | sub a b, s | mul a b, s | div a b, s => b.collectSymbols (a.collectSymbols s)

def symbols (e : Angle α) : NameSet := e.collectSymbols []

theorem mem_collectSymbols {e : Angle α} {x : String} {s : NameSet} :
    x ∈ e.collectSymbols s ↔ x ∈ e.symbols ∨ x ∈ s := by
  unfold symbols
  induction e generalizing s with
  | constant | symbol => simp [collectSymbols]
  | neg e ih => exact ih
  | add a b iha ihb | sub a b iha ihb | mul a b iha ihb | div a b iha ihb =>
    simp only [collectSymbols]
    rw [ihb, iha, ihb (s := a.collectSymbols []), or_assoc]

def bind (values : Binding α) : Angle α → Angle α
  | constant v => constant v
  | symbol name =>
    match values name with
    | some v => constant v
    | none => symbol name
  | neg e => neg (e.bind values)
  | add a b => add (a.bind values) (b.bind values)
  | sub a b => sub (a.bind values) (b.bind values)
  | mul a b => mul (a.bind values) (b.bind values)
  | div a b => div (a.bind values) (b.bind values)

/-- Fully parenthesised text. -/
def text [DecimalText α] : Angle α → String
  | constant v => Decimal.plainText v
  | symbol name => name
  | neg e => "-(" ++ e.text ++ ")"
  | add a b => "(" ++ a.text ++ " + " ++ b.text ++ ")"
  | sub a b => "(" ++ a.text ++ " - " ++ b.text ++ ")"
  | mul a b => "(" ++ a.text ++ " * " ++ b.text ++ ")"
  | div a b => "(" ++ a.text ++ " / " ++ b.text ++ ")"

end Angle

end KetSim

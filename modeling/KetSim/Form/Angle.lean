import KetSim.Angle
import KetSim.Json.Form

/-! # JSON form of angles -/
namespace KetSim.Angle

variable {α : Type} [DecimalText α]

def toJson : Angle α → Json
  | constant v => Json.tagged "Constant" (Json.ofScalar v)
  | symbol name => Json.tagged "Symbol" (.str name)
  | neg e => Json.tagged "Neg" e.toJson
  | add a b => Json.tagged "Add" (Json.pair a.toJson b.toJson)
  | sub a b => Json.tagged "Sub" (Json.pair a.toJson b.toJson)
  | mul a b => Json.tagged "Mul" (Json.pair a.toJson b.toJson)
  | div a b => Json.tagged "Div" (Json.pair a.toJson b.toJson)

def binary? : String → Option (Angle α → Angle α → Angle α)
  | "Add" => some add
  | "Sub" => some sub
  | "Mul" => some mul
  | "Div" => some div
  | _ => none

def ofJson? : Json → Option (Angle α)
  | .obj [(name, payload)] =>
    match name, payload with
    | "Constant", j => (Json.scalar? j).map constant
    | "Symbol", j => j.string?.map symbol
    | "Neg", j => (ofJson? j).map neg
    | name, .arr [a, b] => do
      let node ← binary? name
      let x ← ofJson? a
      let y ← ofJson? b
      some (node x y)
    | _, _ => none
  | _ => none

instance : JsonForm (Angle α) := ⟨toJson, ofJson?⟩

end KetSim.Angle

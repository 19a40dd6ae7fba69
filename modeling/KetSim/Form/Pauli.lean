import KetSim.Form.Circuit
import KetSim.Pauli

/-! # JSON form of Pauli operators -/
namespace KetSim

def Pauli.table : List (String × Pauli) := [("I", .i), ("X", .x), ("Y", .y), ("Z", .z)]

instance : JsonForm Pauli := ⟨Json.nameIn Pauli.table, Json.named? Pauli.table⟩

instance : JsonForm PauliString where
  toJson p := .obj [("ops", Json.ofList (fun op => Json.pair (toJson op.1) (toJson op.2)) p.ops)]
  ofJson? j := do
    let r ← j.record? ["ops"]
    some ⟨← r.required "ops" (Json.listOf? (Json.pair? ofJson? ofJson?))⟩

variable {α : Type} [DecimalText α]

instance : JsonForm (PauliOperator α) where
  toJson op :=
    .obj [("terms",
      Json.ofList (fun term => Json.pair (toJson term.1) (Json.ofScalar term.2)) op.terms)]
  ofJson? j := do
    let r ← j.record? ["terms"]
    some ⟨← r.required "terms" (Json.listOf? (Json.pair? ofJson? Json.scalar?))⟩

end KetSim

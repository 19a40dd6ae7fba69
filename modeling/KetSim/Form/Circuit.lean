import KetSim.Circuit.Basic
import KetSim.Form.Angle
import KetSim.Json.Printer
import KetSim.Json.Reader

/-! # JSON form of circuits

Wires, gates, instructions and circuits. Members stand in the order of the
fields, and empty lists of angles and of classical bits are left out.
-/
namespace KetSim

instance : JsonForm QubitId where
  toJson q := .int q.index
  ofJson? j := (j.nat? wireLimit).map QubitId.mk

instance : JsonForm ClbitId where
  toJson c := .int c.index
  ofJson? j := (j.nat? wireLimit).map ClbitId.mk

instance : JsonForm Qubit where
  toJson q := .obj [("id", toJson q.id), ("register", .str q.register), ("index", .int q.index)]
  ofJson? j := do
    let r ← j.record? ["id", "register", "index"]
    some ⟨← r.required "id" ofJson?, ← r.required "register" Json.string?,
      ← r.required "index" (Json.nat? wireLimit)⟩

instance : JsonForm Clbit where
  toJson c := .obj [("id", toJson c.id), ("register", .str c.register), ("index", .int c.index)]
  ofJson? j := do
    let r ← j.record? ["id", "register", "index"]
    some ⟨← r.required "id" ofJson?, ← r.required "register" Json.string?,
      ← r.required "index" (Json.nat? wireLimit)⟩

instance : JsonForm QuantumRegister where
  toJson r := .obj [("name", .str r.name), ("qubits", Json.ofList toJson r.qubits)]
  ofJson? j := do
    let r ← j.record? ["name", "qubits"]
    some ⟨← r.required "name" Json.string?, ← r.required "qubits" (Json.listOf? ofJson?)⟩

namespace StandardGate

/-- The built-in gates under the names of their JSON form. -/
def table : List (String × StandardGate) :=
  [("X", x), ("Y", y), ("Z", z), ("H", h), ("S", s), ("Sdg", sdg), ("T", t), ("Tdg", tdg),
    ("SX", sx), ("SXdg", sxdg), ("Rx", rx), ("Ry", ry), ("Rz", rz), ("U1", u1), ("U2", u2),
    ("U3", u3), ("CX", cx), ("CY", cy), ("CZ", cz), ("CH", ch), ("CRz", crz), ("CP", cp),
    ("Swap", swap), ("ISwap", iswap), ("ZZPhase", zzPhase), ("CCX", ccx), ("CSwap", cswap)]

end StandardGate

instance : JsonForm StandardGate := ⟨Json.nameIn StandardGate.table, Json.named? StandardGate.table⟩

instance : JsonForm CustomGate where
  toJson g := .obj [("name", .str g.name), ("num_qubits", .int g.numQubits)]
  ofJson? j := do
    let r ← j.record? ["name", "num_qubits"]
    some ⟨← r.required "name" Json.string?, ← r.required "num_qubits" (Json.nat? wireLimit)⟩

instance : JsonForm GateKind where
  toJson
    | .standard g => Json.tagged "Standard" (toJson g)
    | .custom g => Json.tagged "Custom" (toJson g)
  ofJson? j :=
    match j.choice? with
    | some ("Standard", some payload) => (ofJson? payload).map GateKind.standard
    | some ("Custom", some payload) => (ofJson? payload).map GateKind.custom
    | _ => none

variable {α : Type} [DecimalText α]

instance : JsonForm (Gate α) where
  toJson g := .obj (("kind", toJson g.kind) :: Json.nonempty "params" (g.params.map toJson))
  ofJson? j := do
    let r ← j.record? ["kind", "params"]
    some ⟨← r.required "kind" ofJson?, ← r.withDefault "params" [] (Json.listOf? ofJson?)⟩

instance : JsonForm (InstructionKind α) where
  toJson
    | .gate g => Json.tagged "Gate" (toJson g)
    | .measure => .str "Measure"
    | .reset => .str "Reset"
    | .barrier => .str "Barrier"
  ofJson? j :=
    match j.choice? with
    | some ("Gate", some payload) => (ofJson? payload).map InstructionKind.gate
    | some ("Gate", none) => none
    | _ => j.named? [("Measure", .measure), ("Reset", .reset), ("Barrier", .barrier)]

instance : JsonForm (Instruction α) where
  toJson i :=
    .obj (("kind", toJson i.kind) :: ("qubits", Json.ofList toJson i.qubits) ::
      Json.nonempty "clbits" (i.clbits.map toJson))
  ofJson? j := do
    let r ← j.record? ["kind", "qubits", "clbits"]
    some ⟨← r.required "kind" ofJson?, ← r.required "qubits" (Json.listOf? ofJson?),
      ← r.withDefault "clbits" [] (Json.listOf? ofJson?)⟩

instance : JsonForm (Circuit α) where
  toJson c :=
    .obj [("name", .str c.name), ("qubits", Json.ofList toJson c.qubits),
      ("clbits", Json.ofList toJson c.clbits), ("qregs", Json.ofList toJson c.qregs),
      ("instructions", Json.ofList toJson c.instructions), ("phase", Json.ofScalar c.phase)]
  ofJson? j := do
    let r ← j.record? ["name", "qubits", "clbits", "qregs", "instructions", "phase"]
    some ⟨← r.required "name" Json.string?, ← r.required "qubits" (Json.listOf? ofJson?),
      ← r.required "clbits" (Json.listOf? ofJson?), ← r.required "qregs" (Json.listOf? ofJson?),
      ← r.required "instructions" (Json.listOf? ofJson?), ← r.required "phase" Json.scalar?⟩

namespace Circuit

/-- Texts nested deeper than this are refused. -/
def nestingLimit : Nat := 127

def serialize (c : Circuit α) : String := (toJson c).text

/-- The circuit of a JSON text whose nesting stays within `depth`. -/
def deserialize? (depth : Nat) (text : String) : Option (Circuit α) := do
  let j ← Json.parseWithin depth text
  ofJson? j

end Circuit

end KetSim

import KetSim.Engine.Program
import KetSim.Json.Form

/-! # JSON form of engine data

Options, gates, programs and observables. A gate is a choice between kinds: the
payload is an index, the array of its operands, or a record of its roles.
-/
namespace KetSim.Engine

/-- Indices and sizes are words of 64 bits. -/
def indexLimit : Nat := 2 ^ 64

def index? : Json → Option Nat := Json.nat? indexLimit

/-! ## Options -/

def Device.table : List (String × Device) := [("cpu", .cpu), ("gpu", .gpu)]

def Precision.table : List (String × Precision) := [("double", .double), ("single", .single)]

instance : JsonForm Device := ⟨Json.nameIn Device.table, Json.named? Device.table⟩

instance : JsonForm Precision := ⟨Json.nameIn Precision.table, Json.named? Precision.table⟩

instance : JsonForm Options where
  toJson o := .obj [("device", toJson o.device), ("precision", toJson o.precision)]
  ofJson? j := do
    let r ← j.record? ["device", "precision"]
    some ⟨← r.required "device" ofJson?, ← r.required "precision" ofJson?⟩

variable {α : Type} [DecimalText α]

/-! ## Gates -/

/-- An operand list: indices first, then angles. -/
def operands (qubits : List Nat) (angles : List α) : Json :=
  .arr (qubits.map (fun q : Nat => Json.int q) ++ angles.map Json.ofScalar)

def roles (members : List (String × Nat)) : Json :=
  .obj (members.map fun (name, q) => (name, .int q))

def Gate.toJson : Gate α → Json
  | x q => Json.tagged "X" (.int q)
  | y q => Json.tagged "Y" (.int q)
  | z q => Json.tagged "Z" (.int q)
  | h q => Json.tagged "H" (.int q)
  | s q => Json.tagged "S" (.int q)
  | sdag q => Json.tagged "Sdag" (.int q)
  | t q => Json.tagged "T" (.int q)
  | tdag q => Json.tagged "Tdag" (.int q)
  | sqrtX q => Json.tagged "SqrtX" (.int q)
  | sqrtXdag q => Json.tagged "SqrtXdag" (.int q)
  | rx q a => Json.tagged "RX" (operands [q] [a])
  | ry q a => Json.tagged "RY" (operands [q] [a])
  | rz q a => Json.tagged "RZ" (operands [q] [a])
  | u1 q a => Json.tagged "U1" (operands [q] [a])
  | u2 q a b => Json.tagged "U2" (operands [q] [a, b])
  | u3 q a b c => Json.tagged "U3" (operands [q] [a, b, c])
  | cnot c q => Json.tagged "CNOT" (roles [("control", c), ("target", q)])
  | cz c q => Json.tagged "CZ" (roles [("control", c), ("target", q)])
  | swap a b => Json.tagged "SWAP" (operands (α := α) [a, b] [])
  | toffoli c d q => Json.tagged "Toffoli" (roles [("control1", c), ("control2", d), ("target", q)])
  | fredkin c a b => Json.tagged "Fredkin" (roles [("control", c), ("target1", a), ("target2", b)])

/-- The gates whose payload is the index of their qubit. -/
def Gate.onQubit? : String → Option (Nat → Gate α)
  | "X" => some .x
  | "Y" => some .y
  | "Z" => some .z
  | "H" => some .h
  | "S" => some .s
  | "Sdag" => some .sdag
  | "T" => some .t
  | "Tdag" => some .tdag
  | "SqrtX" => some .sqrtX
  | "SqrtXdag" => some .sqrtXdag
  | _ => none

/-- The gates whose payload is an operand list. -/
def Gate.ofOperands? : String → List Json → Option (Gate α)
  | "RX", [q, a] => do some (.rx (← index? q) (← Json.scalar? a))
  | "RY", [q, a] => do some (.ry (← index? q) (← Json.scalar? a))
  | "RZ", [q, a] => do some (.rz (← index? q) (← Json.scalar? a))
  | "U1", [q, a] => do some (.u1 (← index? q) (← Json.scalar? a))
  | "U2", [q, a, b] => do some (.u2 (← index? q) (← Json.scalar? a) (← Json.scalar? b))
  | "U3", [q, a, b, c] => do
    some (.u3 (← index? q) (← Json.scalar? a) (← Json.scalar? b) (← Json.scalar? c))
  | "SWAP", [a, b] => do some (.swap (← index? a) (← index? b))
  | _, _ => none

/-- The gates whose payload names the role of each qubit. -/
def Gate.ofRoles? (name : String) (members : List (String × Json)) : Option (Gate α) :=
  let role (key : String) : Option Nat := members.lookup key >>= index?
  match name with
  | "CNOT" => do some (.cnot (← role "control") (← role "target"))
  | "CZ" => do some (.cz (← role "control") (← role "target"))
  | "Toffoli" => do some (.toffoli (← role "control1") (← role "control2") (← role "target"))
  | "Fredkin" => do some (.fredkin (← role "control") (← role "target1") (← role "target2"))
  | _ => none

def Gate.ofJson? (j : Json) : Option (Gate α) :=
  match j with
  | .obj [(name, .arr items)] => Gate.ofOperands? name items
  | .obj [(name, .obj members)] => Gate.ofRoles? name members
  | .obj [(name, payload)] => do
    let gate ← Gate.onQubit? name
    let q ← index? payload
    some (gate q)
  | _ => none

instance : JsonForm (Gate α) := ⟨Gate.toJson, Gate.ofJson?⟩

/-! ## Programs and observables -/

instance : JsonForm (Program α) where
  toJson p := .obj [("num_qubits", .int p.numQubits), ("gates", Json.ofList toJson p.gates)]
  ofJson? j := do
    let r ← j.record? ["num_qubits", "gates"]
    some ⟨← r.required "num_qubits" index?, ← r.required "gates" (Json.listOf? ofJson?)⟩

def Axis.table : List (String × Axis) := [("X", .x), ("Y", .y), ("Z", .z)]

instance : JsonForm Axis := ⟨Json.nameIn Axis.table, Json.named? Axis.table⟩

instance : JsonForm (Term α) where
  toJson t :=
    .obj [("coeff", Json.ofScalar t.coeff),
      ("ops", Json.ofList (fun op => Json.pair (.int op.1) (toJson op.2)) t.ops)]
  ofJson? j := do
    let r ← j.record? ["coeff", "ops"]
    some ⟨← r.required "coeff" Json.scalar?,
      ← r.required "ops" (Json.listOf? (Json.pair? index? ofJson?))⟩

instance : JsonForm (Observable α) where
  toJson o := .obj [("num_qubits", .int o.numQubits), ("terms", Json.ofList toJson o.terms)]
  ofJson? j := do
    let r ← j.record? ["num_qubits", "terms"]
    some ⟨← r.required "num_qubits" index?, ← r.required "terms" (Json.listOf? ofJson?)⟩

end KetSim.Engine

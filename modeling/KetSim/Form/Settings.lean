import KetSim.Backend.Settings
import KetSim.Form.Engine
import KetSim.Json.Canonical
import KetSim.Json.Printer
import KetSim.Text.Quoted

/-! # JSON form of settings

A record whose fields may all be absent. A field that is not a setting, or a
value that the setting does not take, is reported with its cause; the first one
in the order of the members counts.
-/
namespace KetSim

inductive SettingProblem where
  | unknownField
  | unknownVariant (given : String) (expected : List String)
  | wrongType (given : Json) (expected : String)
  | wrongValue (given : Json) (expected : String)
  deriving Repr

structure SettingError where
  key : String
  problem : SettingProblem
  deriving Repr

namespace Settings

def names : List String :=
  ["result_type", "device", "precision", "max_qubits", "cache", "cache_capacity", "seed"]

/-! ## Wording -/

def tick (s : String) : String := "`" ++ s ++ "`"

/-- The names one may choose from. -/
def oneOf : List String → String
  | [a] => tick a
  | [a, b] => tick a ++ " or " ++ tick b
  | options => "one of " ++ ", ".intercalate (options.map tick)

/-- A value as messages name it: by its kind, and by its text if it is short. -/
def described : Json → String
  | .null => "null"
  | .bool b => "boolean " ++ tick (if b then "true" else "false")
  | .int n => "integer " ++ tick (toString n)
  | .decimal d => "floating point " ++ tick (Json.decimal d).text
  | .str s => "string " ++ Text.quoted s
  | .arr _ => "sequence"
  | .obj _ => "map"

end Settings

def SettingError.message (e : SettingError) : String :=
  match e.problem with
  | .unknownField =>
    "unknown field " ++ Settings.tick e.key ++ ", expected " ++ Settings.oneOf Settings.names
  | .unknownVariant given expected =>
    "unknown variant " ++ Settings.tick given ++ ", expected " ++ Settings.oneOf expected
  | .wrongType given expected =>
    "invalid type: " ++ Settings.described given ++ ", expected " ++ expected
  | .wrongValue given expected =>
    "invalid value: " ++ Settings.described given ++ ", expected " ++ expected

def Representation.table : List (String × Representation) :=
  [("statevector", .stateVector), ("density_matrix", .densityMatrix)]

instance : JsonForm Representation :=
  ⟨Json.nameIn Representation.table, Json.named? Representation.table⟩

namespace Settings

/-! ## Values -/

def variant {β : Type} (table : List (String × β)) (name : String) : Except SettingProblem β :=
  match table.lookup name with
  | some value => .ok value
  | none => .error (.unknownVariant name (table.map (·.1)))

/-- A name of the table, alone or as the only key of an object over `null`. -/
def choice {β : Type} (table : List (String × β)) : Json → Except SettingProblem β
  | .str name => variant table name
  | .obj [(name, payload)] => do
    let value ← variant table name
    match payload with
    | .null => .ok value
    | other => .error (.wrongType other "unit")
  | .obj members => .error (.wrongValue (.obj members) "map with a single key")
  | other => .error (.wrongType other "string or map")

/-- A natural number below a limit. -/
def whole (limit : Nat) (expected : String) : Json → Except SettingProblem Nat
  | .int n =>
    if 0 ≤ n ∧ n.toNat < limit then .ok n.toNat else .error (.wrongValue (.int n) expected)
  | other => .error (.wrongType other expected)

def flag : Json → Except SettingProblem Bool
  | .bool b => .ok b
  | other => .error (.wrongType other "a boolean")

def seedValue : Json → Except SettingProblem (Option UInt64)
  | .null => .ok none
  | j => do
    let n ← whole (2 ^ 64) "u64" j
    .ok (some n.toUInt64)

/-- Settings with one field given. -/
def assign (s : Settings) (key : String) (value : Json) : Except SettingProblem Settings :=
  match key with
  | "result_type" => do .ok { s with representation := ← choice Representation.table value }
  | "device" => do .ok { s with device := ← choice Engine.Device.table value }
  | "precision" => do .ok { s with precision := ← choice Engine.Precision.table value }
  | "max_qubits" => do .ok { s with maxQubits := ← whole (2 ^ 32) "u32" value }
  | "cache" => do .ok { s with caching := ← flag value }
  | "cache_capacity" => do .ok { s with cacheCapacity := ← whole (2 ^ 64) "usize" value }
  | "seed" => do .ok { s with seed := ← seedValue value }
  | _ => .error .unknownField

def assignMember (s : Settings) (member : String × Json) : Except SettingError Settings :=
  (s.assign member.1 member.2).mapError fun problem => ⟨member.1, problem⟩

/-- The settings that members ask for; those not mentioned keep their defaults. -/
def decode (members : List (String × Json)) : Except SettingError Settings :=
  members.foldlM assignMember {}

def toJson (s : Settings) : Json :=
  .obj ([("result_type", JsonForm.toJson s.representation), ("device", JsonForm.toJson s.device),
    ("precision", JsonForm.toJson s.precision), ("max_qubits", .int s.maxQubits),
    ("cache", .bool s.caching), ("cache_capacity", .int s.cacheCapacity)] ++
    Json.present "seed" (s.seed.map fun n => .int n.toNat))

/-- From an object, or from an array with the fields in order. -/
def ofJson? : Json → Option Settings
  | .obj members => (decode members).toOption
  | .arr items => if items.length ≤ names.length then (decode (names.zip items)).toOption else none
  | _ => none

instance : JsonForm Settings := ⟨toJson, ofJson?⟩

end Settings

end KetSim

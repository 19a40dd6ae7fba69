import KetSim.Json.Basic

/-! # JSON forms

How values of a type are written as JSON and recovered from it. A record is an
object whose unknown members are ignored, or the array of its fields in order.
A choice is a name, or an object with the name as its only key and the payload
as its value.
-/
namespace KetSim

class JsonForm (β : Type) where
  toJson : β → Json
  ofJson? : Json → Option β

export JsonForm (toJson ofJson?)

namespace Json

/-! ## Plain values -/

def nat? (limit : Nat) : Json → Option Nat
  | .int n => if 0 ≤ n ∧ n.toNat < limit then some n.toNat else none
  | _ => none

def string? : Json → Option String
  | .str s => some s
  | _ => none

def bool? : Json → Option Bool
  | .bool b => some b
  | _ => none

def items? : Json → Option (List Json)
  | .arr items => some items
  | _ => none

def members? : Json → Option (List (String × Json))
  | .obj members => some members
  | _ => none

/-- A scalar: any number, whole or not. -/
def scalar? {α : Type} [DecimalText α] : Json → Option α
  | .int n => some (DecimalText.ofDecimal (Decimal.ofInt n))
  | .decimal d => some (DecimalText.ofDecimal d)
  | _ => none

def listOf? {β : Type} (item : Json → Option β) (j : Json) : Option (List β) := do
  let items ← j.items?
  items.mapM item

def pair? {β γ : Type} (first : Json → Option β) (second : Json → Option γ) :
    Json → Option (β × γ)
  | .arr [a, b] => do
    let x ← first a
    let y ← second b
    some (x, y)
  | _ => none

/-- `null` is the absence of a value. -/
def option? {β : Type} (value : Json → Option β) : Json → Option (Option β)
  | .null => some none
  | j => (value j).map some

/-! ## Records -/

/-- The fields that are present, and whether they were given by place. -/
structure Record where
  fields : List (String × Json)
  placed : Bool

def record? (names : List String) : Json → Option Record
  | .obj members => some ⟨members, false⟩
  | .arr items => if items.length ≤ names.length then some ⟨names.zip items, true⟩ else none
  | _ => none

namespace Record

variable {β : Type}

def required (r : Record) (name : String) (value : Json → Option β) : Option β := do
  let j ← r.fields.lookup name
  value j

/-- A field that may be absent by name, but not by place. -/
def optional (r : Record) (name : String) (value : Json → Option β) : Option (Option β) :=
  match r.fields.lookup name with
  | some j => option? value j
  | none => if r.placed then none else some none

def withDefault (r : Record) (name : String) (absent : β) (value : Json → Option β) : Option β :=
  match r.fields.lookup name with
  | some j => value j
  | none => some absent

end Record

/-- The members that hold a value. -/
def present (name : String) (value : Option Json) : List (String × Json) :=
  match value with
  | some j => [(name, j)]
  | none => []

/-- A list member that is left out when it is empty. -/
def nonempty (name : String) (items : List Json) : List (String × Json) :=
  if items.isEmpty then [] else [(name, .arr items)]

/-! ## Choices -/

/-- The name of a choice with its payload. -/
def choice? : Json → Option (String × Option Json)
  | .str name => some (name, none)
  | .obj [(name, payload)] => some (name, some payload)
  | _ => none

def tagged (name : String) (payload : Json) : Json := .obj [(name, payload)]

def noPayload? : Option Json → Option Unit
  | none => some ()
  | some .null => some ()
  | _ => none

/-- The member of a table under the name of a choice without payload. -/
def named? {β : Type} (table : List (String × β)) (j : Json) : Option β := do
  let (name, payload) ← j.choice?
  let value ← table.lookup name
  let _ ← noPayload? payload
  some value

/-- The name of a value in a table. -/
def nameIn {β : Type} [BEq β] (table : List (String × β)) (value : β) : Json :=
  match table.find? (·.2 == value) with
  | some (name, _) => .str name
  | none => .null

end Json

instance : JsonForm String := ⟨.str, Json.string?⟩

instance : JsonForm Bool := ⟨.bool, Json.bool?⟩

end KetSim

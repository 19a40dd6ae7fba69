import KetSim.Backend.Error
import KetSim.Form.Settings

/-! # Backend configurations

A name, and named values whose meaning the backend decides. The values ascend by
name, so that their order of arrival is forgotten.
-/
namespace KetSim

structure BackendConfig where
  name : String
  extras : List (String × Json)
  deriving Repr

namespace BackendConfig

def new (name : String) : BackendConfig := ⟨name, []⟩

/-- Gives one value, over any earlier one of the same name. -/
def withExtra (c : BackendConfig) (key : String) (value : Json) : BackendConfig :=
  { c with extras := Json.insertMember key value.canonical c.extras }

def withExtras (c : BackendConfig) (members : List (String × Json)) : BackendConfig :=
  members.foldl (fun c (key, value) => c.withExtra key value) c

def extra? (c : BackendConfig) (key : String) : Option Json := c.extras.lookup key

def settings {α : Type} (c : BackendConfig) : Except (BackendError α) Settings :=
  (Settings.decode c.extras).mapError fun e =>
    .configuration ("invalid settings for '" ++ c.name ++ "': " ++ e.message)

instance : JsonForm BackendConfig where
  toJson c := .obj (("name", .str c.name) :: c.extras)
  ofJson? j := do
    let members ← j.members?
    let name ← members.lookup "name"
    some ((new (← name.string?)).withExtras (members.filter (·.1 ≠ "name")))

end BackendConfig

end KetSim

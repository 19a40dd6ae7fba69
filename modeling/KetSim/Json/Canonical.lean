import KetSim.Decimal.Float
import KetSim.Json.Basic

/-! # Canonical JSON values

Settings are kept in a form that forgets how they were written: members ascend
by key, the last of several equal keys stays, and every decimal is the shortest
one of the float nearest to it.
-/
namespace KetSim.Json

/-- Puts a member in its place among ascending keys, over any equal one. -/
def insertMember (key : String) (value : Json) : List (String × Json) → List (String × Json)
  | [] => [(key, value)]
  | (k, v) :: rest =>
    if key = k then (key, value) :: rest
    else if key < k then (key, value) :: (k, v) :: rest
    else (k, v) :: insertMember key value rest

theorem lookup_insertMember (key other : String) (value : Json) (members : List (String × Json)) :
    (insertMember key value members).lookup other =
      if other = key then some value else members.lookup other := by
  induction members with
  | nil => grind [insertMember]
  | cons head rest ih =>
    rw [insertMember]
    split
    · grind
    · split <;> grind

def sortMembers (members : List (String × Json)) : List (String × Json) :=
  members.foldl (fun sorted member => insertMember member.1 member.2 sorted) []

def roundDecimal (d : Decimal) : Json := ofScalar d.toFloat

mutual

def canonical : Json → Json
  | .decimal d => roundDecimal d
  | .arr items => .arr (canonicalItems items)
  | .obj members => .obj (sortMembers (canonicalMembers members))
  | j => j

def canonicalItems : List Json → List Json
  | [] => []
  | item :: rest => item.canonical :: canonicalItems rest

def canonicalMember : String × Json → String × Json
  | (key, value) => (key, value.canonical)

def canonicalMembers : List (String × Json) → List (String × Json)
  | [] => []
  | member :: rest => canonicalMember member :: canonicalMembers rest

end

end KetSim.Json

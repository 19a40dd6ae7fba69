/-! # Sets of names

Finite sets of names as strictly ascending lists. The order is by code point,
which is also the order of the encoded bytes.
-/
namespace KetSim

abbrev NameSet := List String

namespace NameSet

def insert (name : String) : NameSet → NameSet
  | [] => [name]
  | x :: xs =>
    if name = x then x :: xs
    else if name < x then name :: x :: xs
    else x :: insert name xs

def union (a b : NameSet) : NameSet := b.foldl (fun s name => insert name s) a

def ofList (names : List String) : NameSet := union [] names

@[simp] theorem mem_insert {x name : String} {s : NameSet} :
    x ∈ insert name s ↔ x = name ∨ x ∈ s := by
  induction s with
  | nil => simp [insert]
  | cons y ys ih => grind [insert]

@[simp] theorem mem_union {x : String} {a b : NameSet} : x ∈ union a b ↔ x ∈ a ∨ x ∈ b := by
  unfold union
  induction b generalizing a with
  | nil => simp
  | cons y ys ih => simp [ih]; grind

@[simp] theorem mem_ofList {x : String} {names : List String} : x ∈ ofList names ↔ x ∈ names := by
  simp [ofList]

end NameSet

end KetSim

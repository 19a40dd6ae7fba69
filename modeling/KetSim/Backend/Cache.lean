import KetSim.Backend.Prepared

/-! # Cache of prepared circuits

Entries by key, and the keys in the order of their arrival. A full cache makes
room by dropping the oldest keys. An entry is handed out for an equal circuit
only, so two circuits with one key never share a preparation.
-/
namespace KetSim

structure Cache (α : Type) where
  entries : List (CircuitKey × Prepared α)
  order : List CircuitKey

namespace Cache

variable {α : Type}

def empty : Cache α := ⟨[], []⟩

def size (c : Cache α) : Nat := c.entries.length

/-- Drops the oldest keys until there is room for one more. -/
def evict (capacity : Nat) (entries : List (CircuitKey × Prepared α)) : List CircuitKey → Cache α
  | [] => ⟨entries, []⟩
  | oldest :: rest =>
    if capacity ≤ entries.length then evict capacity (entries.filter (·.1 ≠ oldest)) rest
    else ⟨entries, oldest :: rest⟩

variable [BEq α]

def get? (c : Cache α) (key : CircuitKey) (circuit : Circuit α) : Option (Prepared α) :=
  (c.entries.lookup key).filter (·.source == circuit)

theorem source_of_get? {c : Cache α} {key : CircuitKey} {circuit : Circuit α} {p : Prepared α}
    (h : c.get? key circuit = some p) : (p.source == circuit) = true := by
  simp only [get?, Option.filter_eq_some_iff] at h
  exact h.2

/-- Stores a preparation under its key if the key is free and there can be room, and returns the
one to hand out: the stored one if it is of an equal circuit. -/
def insert (c : Cache α) (capacity : Nat) (p : Prepared α) : Cache α × Prepared α :=
  match c.entries.lookup p.key with
  | some stored => if stored.source == p.source then (c, stored) else (c, p)
  | none =>
    if capacity = 0 then (c, p)
    else
      let kept := evict capacity c.entries c.order
      (⟨kept.entries ++ [(p.key, p)], kept.order ++ [p.key]⟩, p)

end Cache

end KetSim

import KetSim.Circuit.Basic

/-! # Entangled pairs and chains

Measured circuits for the Bell and Greenberger-Horne-Zeilinger states.
-/
namespace KetSim.Circuit

variable {α : Type} [Zero α]

def bell : Except CircuitError (Circuit α) := do
  let c ← (withSize "bell" 2 2).apply .h [] [⟨0⟩]
  let c ← c.apply .cx [] [⟨0⟩, ⟨1⟩]
  let c ← c.measure ⟨0⟩ ⟨0⟩
  c.measure ⟨1⟩ ⟨1⟩

/-- Entangles `n` qubits along a chain and measures them; without qubits the circuit is empty. -/
def ghz (n : Nat) : Except CircuitError (Circuit α) :=
  if n = 0 then .ok (new "ghz_0")
  else do
    let c ← (withSize "ghz" n n).apply .h [] [⟨0⟩]
    let c ← c.appendAll ((List.range (n - 1)).map fun i => .ofGate (.fixed .cx) [⟨i⟩, ⟨i + 1⟩])
    c.measureAll

end KetSim.Circuit

import KetSim.Form.Circuit
import KetSim.Text.ContentHash

/-! # Circuit keys

A circuit is keyed by the digest of its JSON text. Different circuits may share
a key.
-/
namespace KetSim

structure CircuitKey where
  value : UInt64
  deriving DecidableEq, Repr

namespace CircuitKey

def of {α : Type} [DecimalText α] (c : Circuit α) : CircuitKey := ⟨ContentHash.ofText c.serialize⟩

def text (k : CircuitKey) : String := ContentHash.hex k.value

end CircuitKey

instance : JsonForm CircuitKey where
  toJson k := .int k.value.toNat
  ofJson? j := (j.nat? (2 ^ 64)).map fun n => ⟨n.toUInt64⟩

end KetSim

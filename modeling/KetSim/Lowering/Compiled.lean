import KetSim.Lowering.Gate
import KetSim.Lowering.Readout

/-! # Compiled circuits

A program with what is needed to read its outcomes as those of the circuit.
-/
namespace KetSim

structure Compiled (α : Type) where
  program : Engine.Program α
  layout : QubitLayout
  readout : Readout
  deriving BEq

/-- Lowers a circuit onto the mirrored layout and resolves its measurements. -/
def Circuit.compile {α : Type} [Scalar α] [DecimalText α] (c : Circuit α) :
    Except LoweringError (Compiled α) := do
  let program ← c.lower ⟨true⟩
  let layout := QubitLayout.ofCircuit ⟨true⟩ c
  let readout ← Readout.ofCircuit layout c
  .ok ⟨program, layout, readout⟩

end KetSim

import KetSim.Lowering.Layout

/-! # Readouts

Which bit of a basis index feeds each classical bit. Measurements must come
last on their qubit: a gate or a reset on a measured qubit is an error.
-/
namespace KetSim

structure Readout where
  columns : List (Option Nat)
  deriving DecidableEq, Repr

namespace Readout

def width (r : Readout) : Nat := r.columns.length

def bit (outcome : Nat) : Option Nat → Nat
  | some k => if outcome.testBit k then 1 else 0
  | none => 0

/-- The classical bits of a basis index; bits that no measurement writes are zero. -/
def row (r : Readout) (outcome : Nat) : List Nat := r.columns.map (bit outcome)

@[simp] theorem length_row (r : Readout) (outcome : Nat) : (r.row outcome).length = r.width := by
  simp [row, width]

/-- The place of a classical bit among the declared ones; the last one of equal number counts. -/
def columnOf? (clbits : List Clbit) (b : ClbitId) : Option Nat :=
  (clbits.zipIdx.reverse.find? (·.1.id = b)).map (·.2)

/-- No bit written yet, one column for each number. -/
def unwritten (clbits : List Clbit) : Readout :=
  ⟨List.replicate (clbits.map (·.id)).eraseDups.length none⟩

/-- A readout in the making, with the qubits measured so far. -/
structure Scan where
  readout : Readout
  measured : List QubitId

variable {α : Type}

/-- Writes a measured qubit into the column of a classical bit, over any earlier one. -/
def write (layout : QubitLayout) (clbits : List Clbit) (q : QubitId) (b : ClbitId) (r : Readout) :
    Except LoweringError Readout :=
  match columnOf? clbits b with
  | none => .ok r
  | some column => do
    let i ← layout.index q
    .ok ⟨r.columns.set column (some i)⟩

def Scan.step (layout : QubitLayout) (clbits : List Clbit) (s : Scan) (i : Instruction α)
    (position : Nat) : Except LoweringError Scan :=
  match i.kind with
  | .measure =>
    match i.qubits, i.clbits with
    | q :: _, b :: _ => do
      let r ← write layout clbits q b s.readout
      .ok ⟨r, q :: s.measured⟩
    | _, _ => .ok s
  | .barrier => .ok s
  | .gate _ | .reset =>
    match i.qubits.find? (· ∈ s.measured) with
    | some q => .error (.measuredQubitReused i.name position q)
    | none => .ok s

def Scan.run (layout : QubitLayout) (clbits : List Clbit) :
    Nat → List (Instruction α) → Scan → Except LoweringError Scan
  | _, [], s => .ok s
  | position, i :: rest, s => do
    let s ← s.step layout clbits i position
    run layout clbits (position + 1) rest s

/-- The readout of a circuit; the last measurement into a bit counts. -/
def ofCircuit (layout : QubitLayout) (c : Circuit α) : Except LoweringError Readout := do
  let s ← Scan.run layout c.clbits 0 c.instructions ⟨unwritten c.clbits, []⟩
  .ok s.readout

end Readout

end KetSim

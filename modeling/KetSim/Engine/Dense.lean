import KetSim.Engine.Matrix

/-! # Dense kernel

A matrix on any list of target qubits. The basis states that differ only in the
target bits form a group; each group is read, multiplied and written back. The
chunked form cuts the buffer into blocks that hold whole groups and treats every
block on its own.
-/
namespace KetSim.Engine

variable {α : Type} [Scalar α]

/-- Spreads the bits of a local index over the target qubits. -/
def deposit (targets : List Nat) (i : Nat) : Nat :=
  targets.zipIdx.foldl (fun acc (q, k) => if i.testBit k then acc ||| 2 ^ q else acc) 0

def targetMask (targets : List Nat) : Nat := targets.foldl (fun acc q => acc ||| 2 ^ q) 0

def addProducts (m : Array (Cplx α)) : Nat → List (Cplx α) → Cplx α → Cplx α
  | _, [], total => total
  | k, b :: rest, total => addProducts m (k + 1) rest (total + m.getD k 0 * b)

/-- One row of a matrix times the entries of a group, summed from the left. -/
def rowProduct (m : Array (Cplx α)) (dim row : Nat) (group : List (Cplx α)) : Cplx α :=
  addProducts m (row * dim) group 0

def writeRows (m : Array (Cplx α)) (dim base : Nat) (group : List (Cplx α)) :
    Nat → List Nat → Array (Cplx α) → Array (Cplx α)
  | _, [], buffer => buffer
  | row, offset :: rest, buffer =>
    writeRows m dim base group (row + 1) rest
      (buffer.setIfInBounds (base ||| offset) (rowProduct m dim row group))

/-- Multiplies the group of one base index. -/
def updateGroup (offsets : List Nat) (dim : Nat) (m : Array (Cplx α)) (buffer : Array (Cplx α))
    (base : Nat) : Array (Cplx α) :=
  let group := offsets.map fun offset => buffer.getD (base ||| offset) 0
  writeRows m dim base group 0 offsets buffer

/-- Applies a matrix of dimension `2 ^ targets.length`, group after group. -/
def applyMatrix (targets : List Nat) (m : Array (Cplx α)) (buffer : Array (Cplx α)) :
    Array (Cplx α) :=
  let dim := 2 ^ targets.length
  let offsets := (List.range dim).map (deposit targets)
  let mask := targetMask targets
  (List.range buffer.size).foldl
    (fun b base => if base &&& mask = 0 then updateGroup offsets dim m b base else b) buffer

/-- The least power of two above every target bit, within the buffer. -/
def chunkSize (targets : List Nat) (size : Nat) : Nat :=
  let span := targets.foldl (fun n q => max n (2 ^ (q + 1))) 1
  max 1 (min span size)

def writeFrom : Nat → List (Cplx α) → Array (Cplx α) → Array (Cplx α)
  | _, [], buffer => buffer
  | i, a :: rest, buffer => writeFrom (i + 1) rest (buffer.setIfInBounds i a)

/-- Applies a matrix to one block of the buffer. -/
def updateChunk (targets : List Nat) (m : Array (Cplx α)) (size : Nat) (buffer : Array (Cplx α))
    (k : Nat) : Array (Cplx α) :=
  let block := applyMatrix targets m (buffer.extract (k * size) ((k + 1) * size))
  writeFrom (k * size) block.toList buffer

/-- Applies a matrix block by block, in the given order of the blocks. -/
def applyChunks (targets : List Nat) (m : Array (Cplx α)) (order : List Nat)
    (buffer : Array (Cplx α)) : Array (Cplx α) :=
  order.foldl (updateChunk targets m (chunkSize targets buffer.size)) buffer

def numChunks (targets : List Nat) (size : Nat) : Nat :=
  (size + chunkSize targets size - 1) / chunkSize targets size

def applyChunked (targets : List Nat) (m : Array (Cplx α)) (buffer : Array (Cplx α)) :
    Array (Cplx α) :=
  applyChunks targets m (List.range (numChunks targets buffer.size)) buffer

def applyOn (device : Device) (targets : List Nat) (m : Array (Cplx α))
    (buffer : Array (Cplx α)) : Array (Cplx α) :=
  match device with
  | .cpu => applyMatrix targets m buffer
  | .gpu => applyChunked targets m buffer

/-! ## Sizes -/

@[simp] theorem size_writeRows (m : Array (Cplx α)) (dim base : Nat) (group : List (Cplx α))
    (row : Nat) (offsets : List Nat) (buffer : Array (Cplx α)) :
    (writeRows m dim base group row offsets buffer).size = buffer.size := by
  induction offsets generalizing row buffer with
  | nil => rfl
  | cons offset rest ih => simp [writeRows, ih]

@[simp] theorem size_updateGroup (offsets : List Nat) (dim : Nat) (m buffer : Array (Cplx α))
    (base : Nat) : (updateGroup offsets dim m buffer base).size = buffer.size := by
  simp [updateGroup]

@[simp] theorem size_applyMatrix (targets : List Nat) (m buffer : Array (Cplx α)) :
    (applyMatrix targets m buffer).size = buffer.size := by
  unfold applyMatrix
  generalize List.range buffer.size = bases
  induction bases generalizing buffer with
  | nil => rfl
  | cons base rest ih =>
    rw [List.foldl_cons, ih]
    split <;> simp

omit [Scalar α] in
@[simp] theorem size_writeFrom (i : Nat) (entries : List (Cplx α)) (buffer : Array (Cplx α)) :
    (writeFrom i entries buffer).size = buffer.size := by
  induction entries generalizing i buffer with
  | nil => rfl
  | cons a rest ih => simp [writeFrom, ih]

@[simp] theorem size_applyChunks (targets : List Nat) (m : Array (Cplx α)) (order : List Nat)
    (buffer : Array (Cplx α)) : (applyChunks targets m order buffer).size = buffer.size := by
  unfold applyChunks
  generalize chunkSize targets buffer.size = size
  induction order generalizing buffer with
  | nil => rfl
  | cons k rest ih =>
    rw [List.foldl_cons, ih]
    simp [updateChunk]

@[simp] theorem size_applyOn (device : Device) (targets : List Nat) (m buffer : Array (Cplx α)) :
    (applyOn device targets m buffer).size = buffer.size := by
  cases device <;> simp [applyOn, applyChunked]

end KetSim.Engine

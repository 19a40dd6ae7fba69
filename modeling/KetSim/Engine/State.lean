import KetSim.Engine.Kernel
import KetSim.Engine.Observable
import KetSim.Engine.Parallel
import KetSim.Engine.Sampling

/-! # States

Pure states as vectors of amplitudes and mixed states as density matrices, both
over the basis in which qubit `q` is bit `q` of an index.
-/
namespace KetSim.Engine

variable {α : Type} [Scalar α]

/-! ## Buffers -/

/-- The buffer of `2 ^ bits` entries that holds one at index zero. Sixteen bytes are needed for
an entry, and a size must stay below `2 ^ 63`. -/
def allocate (numQubits bits : Nat) : Except EngineError (Array (Cplx α)) :=
  if 64 ≤ bits then .error (.tooManyQubits numQubits)
  else if 59 ≤ bits then .error (.allocation numQubits)
  else .ok ((Array.replicate (2 ^ bits) 0).setIfInBounds 0 1)

/-- Rounds the entries if the engine keeps them in the narrower format. -/
def keep (precision : Precision) (buffer : Array (Cplx α)) : Array (Cplx α) :=
  match precision with
  | .double => buffer
  | .single => buffer.map Cplx.toSingle

@[simp] theorem size_keep (precision : Precision) (buffer : Array (Cplx α)) :
    (keep precision buffer).size = buffer.size := by
  cases precision <;> simp [keep]

/-- The weighted sum of the values of the terms. -/
def weightedSum (value : Masks → Cplx α) (terms : List (Term α)) : Cplx α :=
  terms.foldl (fun total t => total + Cplx.scale t.coeff (value t.masks)) 0

/-- An observable must not be wider than the state. -/
def checkObservable (o : Observable α) (numQubits : Nat) : Except EngineError Unit :=
  if numQubits < o.numQubits then .error (.sizeMismatch o.numQubits numQubits) else .ok ()

/-! ## State vectors -/

structure StateVector (α : Type) where
  amplitudes : Array (Cplx α)
  numQubits : Nat
  options : Options

namespace StateVector

def zero (numQubits : Nat) (options : Options) : Except EngineError (StateVector α) := do
  let amplitudes ← allocate numQubits numQubits
  .ok ⟨amplitudes, numQubits, options⟩

def amplitude (s : StateVector α) (i : Nat) : Cplx α := s.amplitudes.getD i 0

def applyGate (s : StateVector α) (g : Gate α) : Except EngineError (StateVector α) := do
  g.check s.numQubits
  let amplitudes :=
    match s.options.device with
    | .cpu => g.apply s.amplitudes
    | .gpu => applyOn .gpu g.qubits g.matrix s.amplitudes
  .ok { s with amplitudes := keep s.options.precision amplitudes }

/-- A gate that is applied fits the register, and changes nothing but the amplitudes. -/
theorem applyGate_eq_ok {s s' : StateVector α} {g : Gate α} (h : s.applyGate g = .ok s') :
    g.check s.numQubits = .ok () ∧ s'.amplitudes.size = s.amplitudes.size ∧
      s'.numQubits = s.numQubits ∧ s'.options = s.options := by
  unfold applyGate at h
  cases hc : g.check s.numQubits with
  | error e => simp [hc, bind, Except.bind] at h
  | ok u =>
    simp only [hc, bind, Except.bind, Except.ok.injEq] at h
    subst h
    refine ⟨rfl, ?_, rfl, rfl⟩
    simp only [size_keep]
    split <;> simp

def multiply (s : StateVector α) (factor : Cplx α) : StateVector α :=
  { s with amplitudes := (mapOn s.options.device (· * factor) s.amplitudes.toList).toArray }

def probabilities (s : StateVector α) : List α :=
  mapOn s.options.device Cplx.normSq s.amplitudes.toList

def normSquared (s : StateVector α) : α := (s.amplitudes.toList.map Cplx.normSq).foldl (· + ·) 0

/-- The summands of the inner product of the state with its image under a Pauli product. -/
def pauliTerms (s : StateVector α) (m : Masks) : List (Cplx α) :=
  s.amplitudes.toList.zipIdx.map fun (a, i) => (s.amplitude (i ^^^ m.flip)).conj * m.phase i * a

def pauliValue (s : StateVector α) (m : Masks) : Cplx α :=
  sumOn s.options.device (s.pauliTerms m)

def expectation (s : StateVector α) (o : Observable α) : Except EngineError (Cplx α) := do
  checkObservable o s.numQubits
  .ok (weightedSum s.pauliValue o.terms)

theorem multiply_eq (s : StateVector α) (factor : Cplx α) :
    s.multiply factor = { s with amplitudes := s.amplitudes.map (· * factor) } := by
  simp [multiply, ← Array.toList_map]

theorem probabilities_eq (s : StateVector α) :
    s.probabilities = s.amplitudes.toList.map Cplx.normSq := mapOn_eq _ _ _

end StateVector

/-! ## Density matrices -/

/-- The entry at a row and a column lies at index `row ||| col <<< numQubits`. -/
structure DensityMatrix (α : Type) where
  elements : Array (Cplx α)
  numQubits : Nat
  options : Options

namespace DensityMatrix

def zero (numQubits : Nat) (options : Options) : Except EngineError (DensityMatrix α) := do
  let elements ← allocate numQubits (2 * numQubits)
  .ok ⟨elements, numQubits, options⟩

def dim (d : DensityMatrix α) : Nat := 2 ^ d.numQubits

/-- The index of an element. Indices are words of 64 bits, so the bits of a column that the shift
moves beyond them are lost. -/
def place (d : DensityMatrix α) (row col : Nat) : Nat :=
  row ||| (col <<< d.numQubits) % 2 ^ 64

def get (d : DensityMatrix α) (row col : Nat) : Cplx α := d.elements.getD (d.place row col) 0

/-- Applies the matrix of the gate to the row bits and its conjugate to the column bits. -/
def applyGate (d : DensityMatrix α) (g : Gate α) : Except EngineError (DensityMatrix α) := do
  g.check d.numQubits
  let rows := applyOn d.options.device g.qubits g.matrix d.elements
  let cols :=
    applyOn d.options.device (g.qubits.map (· + d.numQubits)) (g.matrix.map Cplx.conj) rows
  .ok { d with elements := keep d.options.precision cols }

theorem applyGate_eq_ok {d d' : DensityMatrix α} {g : Gate α} (h : d.applyGate g = .ok d') :
    g.check d.numQubits = .ok () ∧ d'.elements.size = d.elements.size ∧
      d'.numQubits = d.numQubits ∧ d'.options = d.options := by
  unfold applyGate at h
  cases hc : g.check d.numQubits with
  | error e => simp [hc, bind, Except.bind] at h
  | ok u =>
    simp only [hc, bind, Except.bind, Except.ok.injEq] at h
    subst h
    exact ⟨rfl, by simp, rfl, rfl⟩

def rowMajor (d : DensityMatrix α) : List (Cplx α) :=
  (List.range (d.dim * d.dim)).map fun k => d.get (k / d.dim) (k % d.dim)

def trace (d : DensityMatrix α) : Cplx α :=
  Cplx.sum ((List.range d.dim).map fun r => d.get r r)

def probabilities (d : DensityMatrix α) : List α :=
  (List.range d.dim).map fun r => (d.get r r).re

/-- The trace of the product with a Pauli product. -/
def pauliValue (d : DensityMatrix α) (m : Masks) : Cplx α :=
  Cplx.sum ((List.range d.dim).map fun r => d.get r (r ^^^ m.flip) * m.phase r)

def expectation (d : DensityMatrix α) (o : Observable α) : Except EngineError (Cplx α) := do
  checkObservable o d.numQubits
  .ok (weightedSum d.pauliValue o.terms)

end DensityMatrix

/-! ## Either representation -/

inductive State (α : Type) where
  | vector (s : StateVector α)
  | density (d : DensityMatrix α)

namespace State

def numQubits : State α → Nat
  | vector s => s.numQubits
  | density d => d.numQubits

def options : State α → Options
  | vector s => s.options
  | density d => d.options

def applyGate (s : State α) (g : Gate α) : Except EngineError (State α) :=
  match s with
  | vector s => (s.applyGate g).map vector
  | density d => (d.applyGate g).map density

def probabilities : State α → List α
  | vector s => s.probabilities
  | density d => d.probabilities

def expectation (s : State α) (o : Observable α) : Except EngineError (Cplx α) :=
  match s with
  | vector s => s.expectation o
  | density d => d.expectation o

def sample (s : State α) (shots : Nat) (seed : UInt64) : List Nat :=
  Engine.sample s.probabilities shots seed

end State

end KetSim.Engine

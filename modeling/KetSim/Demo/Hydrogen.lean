import KetSim.Backend.Execution
import KetSim.Decimal.Float

/-! # The hydrogen molecule

A one-parameter ansatz for the electronic ground state of the hydrogen molecule
on three qubits, its energy operator, and scans of the energy over the parameter.
-/
namespace KetSim.Hydrogen

def groundEnergy : Float := -1.1373060357534004

def optimalTheta : Float := -0.11176849

/-- The ansatz with a single excitation by `theta` radians. -/
def ansatz (theta : Float) : Except CircuitError (Circuit Float) := do
  let q0 : QubitId := ⟨0⟩
  let q1 : QubitId := ⟨1⟩
  let q2 : QubitId := ⟨2⟩
  let angle : Float := -2.0 / Scalar.pi * theta
  let c : Circuit Float := .withSize "h2_ucc" 3 0
  let c ← c.apply .x [] [q0]
  let c ← c.apply .x [] [q1]
  let c ← c.apply .rx [.constant 0.5] [q0]
  let c ← c.apply .h [] [q1]
  let c ← c.apply .h [] [q2]
  let c ← c.apply .cx [] [q0, q1]
  let c ← c.apply .cx [] [q1, q2]
  let c ← c.apply .rz [.constant angle] [q2]
  let c ← c.apply .cx [] [q1, q2]
  let c ← c.apply .cx [] [q0, q1]
  let c ← c.apply .rx [.constant (-0.5)] [q0]
  let c ← c.apply .h [] [q1]
  c.apply .h [] [q2]

def factors (ops : List (Nat × Pauli)) : PauliString := .ofOps (ops.map fun (q, p) => (⟨q⟩, p))

/-- The energy operator in a minimal basis, after reduction by symmetry. -/
def hamiltonian : PauliOperator Float :=
  ⟨[(.identity, 0.08406444459465776),
    (factors [(0, .z)], 0.17218393261915543),
    (factors [(1, .z)], 0.17218393261915546),
    (factors [(2, .z)], -0.45150698444804915),
    (factors [(0, .z), (1, .z)], 0.16892753870087912),
    (factors [(0, .z), (2, .z)], 0.2870580651815905),
    (factors [(1, .z), (2, .z)], 0.2870580651815905),
    (factors [(0, .y), (1, .x), (2, .y)], 0.04523279994605785),
    (factors [(0, .x), (1, .x), (2, .x)], 0.04523279994605785),
    (factors [(0, .y), (1, .y), (2, .x)], -0.04523279994605785),
    (factors [(0, .x), (1, .y), (2, .y)], 0.04523279994605785)]⟩

structure EnergyPoint where
  theta : Float
  energy : Float

/-- What can stop a scan. -/
inductive ScanError where
  | circuit (error : CircuitError)
  | backend (error : BackendError Float)

def ScanError.message : ScanError → String
  | circuit e => e.message
  | backend e => e.message

def energyAt (b : Backend Float) (o : Occasion) (theta : Float) :
    Backend Float × Except ScanError EnergyPoint :=
  match ansatz theta with
  | .error e => (b, .error (.circuit e))
  | .ok c =>
    match b.process o c (.expectation hamiltonian) with
    | (b, .error e) => (b, .error (.backend e))
    | (b, .ok r) => (b, .ok ⟨theta, r.expectation?.getD (0.0 / 0.0)⟩)

/-- Energies at parameters in turn, up to the first failure. -/
def energies (o : Occasion) : Backend Float → List Float →
    Backend Float × Except ScanError (List EnergyPoint)
  | b, [] => (b, .ok [])
  | b, theta :: rest =>
    match energyAt b o theta with
    | (b, .error e) => (b, .error e)
    | (b, .ok p) =>
      let (b, r) := energies o b rest
      (b, r.map (p :: ·))

/-- Evenly spaced values from `low` to `high`, at least two of them. -/
def grid (low high : Float) (steps : Nat) : List Float :=
  let count := max steps 2
  (List.range count).map fun i =>
    low + (high - low) * Float.ofNat i / Float.ofNat (count - 1)

def scan (b : Backend Float) (o : Occasion) (low high : Float) (steps : Nat) :
    Backend Float × Except ScanError (List EnergyPoint) :=
  energies o b (grid low high steps)

/-- The place of a float in the order that puts every float, NaN and both zeros included, on a
line. -/
def orderKey (x : Float) : Int :=
  let bits := x.toBits.toNat
  if bits < 2 ^ 63 then bits else 2 ^ 63 - 1 - (bits : Int)

def lower (best : Option EnergyPoint) (p : EnergyPoint) : Option EnergyPoint :=
  match best with
  | some b => if orderKey p.energy < orderKey b.energy then some p else some b
  | none => some p

/-- The first point of lowest energy. -/
def minimum? (points : List EnergyPoint) : Option EnergyPoint := points.foldl lower none

end KetSim.Hydrogen

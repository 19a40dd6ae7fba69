import KetSim.Engine.Dense
import KetSim.Engine.Sweep

/-! # Gate kernels

One kernel for each kind of gate, in place on a buffer of amplitudes. A kernel
either updates the pairs of entries that differ in the target bit, or exchanges
entries, or multiplies single entries.
-/
namespace KetSim.Engine

variable {α : Type} [Scalar α]

/-- Updates the entries that differ in bit `q` together, the one with the bit clear first. -/
def updateQubit (q : Nat) (step : Cplx α → Cplx α → Cplx α × Cplx α)
    (buffer : Array (Cplx α)) : Array (Cplx α) :=
  sweepPairs (fun i => !i.testBit q) (· ||| 2 ^ q) step buffer

/-- Flips bit `q` of the basis states whose bits are all set at the controls. -/
def flipControlled (controls : List Nat) (q : Nat) (buffer : Array (Cplx α)) : Array (Cplx α) :=
  sweepSwaps (fun i => controls.all i.testBit && !i.testBit q) (· ||| 2 ^ q) buffer

/-- Exchanges bits `a` and `b` of the basis states whose bits are all set at the controls. -/
def swapControlled (controls : List Nat) (a b : Nat) (buffer : Array (Cplx α)) :
    Array (Cplx α) :=
  sweepSwaps (fun i => controls.all i.testBit && i.testBit a && !i.testBit b)
    (fun i => (i ^^^ 2 ^ a) ||| 2 ^ b) buffer

/-- Negates the amplitudes of the basis states whose bits are all set at the given qubits. -/
def negateWhere (qubits : List Nat) (buffer : Array (Cplx α)) : Array (Cplx α) :=
  sweepEach (fun i a => if qubits.all i.testBit then -a else a) buffer

/-- Turns the amplitudes whose bit `q` is set by an angle in radians. -/
def turnWhere (q : Nat) (angle : α) (buffer : Array (Cplx α)) : Array (Cplx α) :=
  let phase := Cplx.cis angle
  sweepEach (fun i a => if i.testBit q then a * phase else a) buffer

/-- Turns all amplitudes, by one angle where bit `q` is clear and by another where it is set. -/
def turnEach (q : Nat) (clear set : α) (buffer : Array (Cplx α)) : Array (Cplx α) :=
  let phase0 := Cplx.cis clear
  let phase1 := Cplx.cis set
  sweepEach (fun i a => if i.testBit q then a * phase1 else a * phase0) buffer

def stepY (a b : Cplx α) : Cplx α × Cplx α :=
  let i : Cplx α := ⟨0, 1⟩
  (-i * b, i * a)

def stepH (r : α) (a b : Cplx α) : Cplx α × Cplx α :=
  (Cplx.scale r (a + b), Cplx.scale r (a - b))

def stepRx (c s : α) (a b : Cplx α) : Cplx α × Cplx α :=
  let i : Cplx α := ⟨0, s⟩
  (Cplx.scale c a + i * b, i * a + Cplx.scale c b)

def stepRy (c s : α) (a b : Cplx α) : Cplx α × Cplx α :=
  (Cplx.scale c a + Cplx.scale s b, Cplx.scale (-s) a + Cplx.scale c b)

def stepU (c : α) (upper lower last : Cplx α) (a b : Cplx α) : Cplx α × Cplx α :=
  (Cplx.scale c a - upper * b, lower * a + last * b)

def applyH (q : Nat) (buffer : Array (Cplx α)) : Array (Cplx α) :=
  updateQubit q (stepH (1 / Scalar.sqrt Scalar.two)) buffer

def applyRx (q : Nat) (theta : α) (buffer : Array (Cplx α)) : Array (Cplx α) :=
  updateQubit q (stepRx (Scalar.cos (theta / Scalar.two)) (Scalar.sin (theta / Scalar.two))) buffer

def applyRy (q : Nat) (theta : α) (buffer : Array (Cplx α)) : Array (Cplx α) :=
  updateQubit q (stepRy (Scalar.cos (theta / Scalar.two)) (Scalar.sin (theta / Scalar.two))) buffer

def applyU (q : Nat) (theta phi lam : α) (buffer : Array (Cplx α)) : Array (Cplx α) :=
  let c := Scalar.cos (theta / Scalar.two)
  let s := Scalar.sin (theta / Scalar.two)
  updateQubit q (stepU c (Cplx.scale s (Cplx.cis lam)) (Cplx.scale s (Cplx.cis phi))
    (Cplx.scale c (Cplx.cis (phi + lam)))) buffer

def Gate.apply (g : Gate α) (buffer : Array (Cplx α)) : Array (Cplx α) :=
  match g with
  | .x q => flipControlled [] q buffer
  | .y q => updateQubit q stepY buffer
  | .z q => negateWhere [q] buffer
  | .h q => applyH q buffer
  | .s q => turnWhere q (Scalar.pi / Scalar.two) buffer
  | .sdag q => turnWhere q (-(Scalar.pi / Scalar.two)) buffer
  | .t q => turnWhere q (Scalar.pi / Scalar.ofNat 4) buffer
  | .tdag q => turnWhere q (-(Scalar.pi / Scalar.ofNat 4)) buffer
  | .sqrtX _ | .sqrtXdag _ => applyMatrix g.qubits g.matrix buffer
  | .rx q theta => applyRx q theta buffer
  | .ry q theta => applyRy q theta buffer
  | .rz q theta => turnEach q (theta / Scalar.two) (-theta / Scalar.two) buffer
  | .u1 q lam => turnWhere q lam buffer
  | .u2 q phi lam => applyU q (Scalar.pi / Scalar.two) phi lam buffer
  | .u3 q theta phi lam => applyU q theta phi lam buffer
  | .cnot c q => flipControlled [c] q buffer
  | .cz c q => negateWhere [c, q] buffer
  | .swap a b => swapControlled [] a b buffer
  | .toffoli c d q => flipControlled [c, d] q buffer
  | .fredkin c a b => swapControlled [c] a b buffer

@[simp] theorem Gate.size_apply (g : Gate α) (buffer : Array (Cplx α)) :
    (g.apply buffer).size = buffer.size := by
  cases g <;>
    simp [Gate.apply, applyH, applyRx, applyRy, applyU, updateQubit, flipControlled, swapControlled,
      negateWhere, turnWhere, turnEach]

end KetSim.Engine

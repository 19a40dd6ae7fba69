import KetSim.Engine.Program
import KetSim.Proofs.Engine.CheckedKernel
import KetSim.Proofs.Engine.Density
import KetSim.Proofs.Engine.Device

/-! # Checked runs

Runs of gates and measurements of states with every access checked. A state with
one entry for each index of its register keeps that form through every gate, so a
run never accesses anything else, nor does what is read off its final state.
-/
namespace KetSim.Engine

variable {α : Type} [Scalar α]

/-! ## Allocation -/

/-- The buffer of a fresh state; its length is a shift by the number of its index bits. -/
def allocate? (numQubits bits : ℕ) : Option (Except EngineError (Array (Cplx α))) :=
  if 64 ≤ bits then some (.error (.tooManyQubits numQubits))
  else if 59 ≤ bits then some (.error (.allocation numQubits))
  else do
    let length ← bit? bits
    let buffer ← write? (Array.replicate length 0) 0 1
    some (.ok buffer)

theorem allocate?_eq (numQubits bits : ℕ) :
    allocate? (α := α) numQubits bits = some (allocate numQubits bits) := by
  unfold allocate? allocate
  split
  · rfl
  · split
    · rfl
    · have hlength : 0 < (Array.replicate (2 ^ bits) (0 : Cplx α)).size := by simp
      rw [bit?_eq (by omega)]
      simp only [Option.bind_eq_bind, Option.bind_some, write?_eq hlength]

/-- A buffer is allocated in full, or there are too many index bits for a word or for the memory. -/
theorem allocate_cases (numQubits bits : ℕ) :
    (∃ buffer : Array (Cplx α), allocate numQubits bits = .ok buffer ∧ buffer.size = 2 ^ bits ∧
      bits < 59) ∨
    (59 ≤ bits ∧ ∃ e, allocate (α := α) numQubits bits = .error e ∧
      (e = .tooManyQubits numQubits ∨ e = .allocation numQubits)) := by
  unfold allocate
  split
  · exact .inr ⟨by omega, _, rfl, .inl rfl⟩
  · split
    · exact .inr ⟨by omega, _, rfl, .inr rfl⟩
    · exact .inl ⟨_, rfl, by simp, by omega⟩

/-! ## States of full size -/

namespace State

/-- The number of bits of an index into the entries. -/
def bits : State α → ℕ
  | vector s => s.numQubits
  | density d => 2 * d.numQubits

/-- One entry for each word of so many bits. -/
structure Addressable (s : State α) : Prop where
  sized : s.Sized
  bits_lt : s.bits < 64

end State

/-! ## Gates -/

def StateVector.applyGate? (s : StateVector α) (g : Gate α) :
    Option (Except EngineError (StateVector α)) :=
  match g.check s.numQubits with
  | .error e => some (.error e)
  | .ok () =>
    let amplitudes? :=
      match s.options.device with
      | .cpu => g.apply? s.amplitudes
      | .gpu => applyOn? .gpu g.qubits g.matrix s.amplitudes
    amplitudes?.map fun amplitudes =>
      .ok { s with amplitudes := keep s.options.precision amplitudes }

def DensityMatrix.applyGate? (d : DensityMatrix α) (g : Gate α) :
    Option (Except EngineError (DensityMatrix α)) :=
  match g.check d.numQubits with
  | .error e => some (.error e)
  | .ok () => do
    let rows ← applyOn? d.options.device g.qubits g.matrix d.elements
    let cols ←
      applyOn? d.options.device (g.qubits.map (· + d.numQubits)) (g.matrix.map Cplx.conj) rows
    some (.ok { d with elements := keep d.options.precision cols })

def State.applyGate? (s : State α) (g : Gate α) : Option (Except EngineError (State α)) :=
  match s with
  | vector s => (s.applyGate? g).map (·.map vector)
  | density d => (d.applyGate? g).map (·.map density)

theorem StateVector.applyGate?_eq {s : StateVector α} (hs : s.amplitudes.size = 2 ^ s.numQubits)
    (hn : s.numQubits < 64) (g : Gate α) : s.applyGate? g = some (s.applyGate g) := by
  unfold applyGate? applyGate
  cases hc : g.check s.numQubits with
  | error e => rfl
  | ok u =>
    have hg := Gate.check_eq_ok.mp hc
    have hlength := g.length_qubits_le
    have hcpu := Gate.apply?_eq hn hs hg
    have hgpu := applyOn?_eq .gpu hn hg.lt (by omega) (Gate.size_matrix g).ge hs
    cases hd : s.options.device with
    | cpu =>
      simp only [hcpu]
      rfl
    | gpu =>
      simp only [hgpu]
      rfl

theorem DensityMatrix.applyGate?_eq {d : DensityMatrix α}
    (hd : d.elements.size = 2 ^ (2 * d.numQubits)) (hn : 2 * d.numQubits < 64) (g : Gate α) :
    d.applyGate? g = some (d.applyGate g) := by
  unfold applyGate? applyGate
  cases hc : g.check d.numQubits with
  | error e => rfl
  | ok u =>
    have hg := Gate.check_eq_ok.mp hc
    have hlength := g.length_qubits_le
    have hrows := applyOn?_eq d.options.device hn hg.lt_two_mul (by omega)
      (Gate.size_matrix g).ge hd
    have hsize : (applyOn d.options.device g.qubits g.matrix d.elements).size =
        2 ^ (2 * d.numQubits) := by rw [size_applyOn, hd]
    have hcols := applyOn?_eq (m := g.matrix.map Cplx.conj) d.options.device hn hg.shift.2
      (by rw [List.length_map]; omega) (by simp) hsize
    simp only [hrows, hcols, Option.bind_eq_bind, Option.bind_some]
    rfl

namespace State

theorem applyGate?_eq {s : State α} (h : s.Addressable) (g : Gate α) :
    s.applyGate? g = some (s.applyGate g) := by
  obtain ⟨hsized, hbits⟩ := h
  cases s with
  | vector s =>
    have hgate := StateVector.applyGate?_eq hsized hbits g
    rw [applyGate?, hgate]
    rfl
  | density d =>
    have hgate := DensityMatrix.applyGate?_eq hsized hbits g
    rw [applyGate?, hgate]
    rfl

theorem bits_applyGate {s s' : State α} {g : Gate α} (h : s.applyGate g = .ok s') :
    s'.bits = s.bits := by
  have hn := (applyGate_numQubits_sized h).1
  cases s with
  | vector s =>
    obtain ⟨t, -, rfl⟩ := map_eq_ok.mp h
    exact hn
  | density d =>
    obtain ⟨t, -, rfl⟩ := map_eq_ok.mp h
    exact congrArg (2 * ·) hn

/-- A gate keeps the form of the state. -/
theorem Addressable.applyGate {s s' : State α} (h : s.Addressable) {g : Gate α}
    (hg : s.applyGate g = .ok s') : s'.Addressable :=
  ⟨(applyGate_numQubits_sized hg).2 h.sized, by rw [bits_applyGate hg]; exact h.bits_lt⟩

/-- A gate that fits is applied. -/
theorem exists_applyGate {s : State α} {g : Gate α} (hg : g.Fits s.numQubits) :
    ∃ s', s.applyGate g = .ok s' := by
  have hcheck := Gate.check_eq_ok.mpr hg
  cases s with
  | vector s =>
    have hs : g.check s.numQubits = .ok () := hcheck
    simp only [applyGate, StateVector.applyGate, hs]
    exact ⟨_, rfl⟩
  | density d =>
    have hd : g.check d.numQubits = .ok () := hcheck
    simp only [applyGate, DensityMatrix.applyGate, hd]
    exact ⟨_, rfl⟩

end State

/-! ## Runs -/

namespace Program

def applyGates? : List (Gate α) → State α → Option (State α × Option EngineError)
  | [], s => some (s, none)
  | g :: rest, s => do
    let outcome ← s.applyGate? g
    match outcome with
    | .ok s' => applyGates? rest s'
    | .error e => some (s, some e)

def run? (p : Program α) (s : State α) : Option (State α × Option EngineError) :=
  if s.numQubits ≠ p.numQubits then some (s, some (.sizeMismatch p.numQubits s.numQubits))
  else applyGates? p.gates s

/-- A run of gates stays within the entries, and keeps the form of the state. -/
theorem applyGates?_eq {gates : List (Gate α)} {s : State α} (h : s.Addressable) :
    applyGates? gates s = some (applyGates gates s) ∧ (applyGates gates s).1.Addressable := by
  induction gates generalizing s with
  | nil => exact ⟨rfl, h⟩
  | cons g rest ih =>
    rw [applyGates?, applyGates, State.applyGate?_eq h]
    cases hg : s.applyGate g with
    | error e => exact ⟨rfl, h⟩
    | ok s' => exact ih (h.applyGate hg)

theorem run?_eq (p : Program α) {s : State α} (h : s.Addressable) :
    p.run? s = some (p.run s) ∧ (p.run s).1.Addressable := by
  unfold run? run
  split
  · exact ⟨rfl, h⟩
  · exact applyGates?_eq h

/-- A run of gates that fit comes to its end. -/
theorem exists_applyGates {gates : List (Gate α)} {s : State α}
    (h : ∀ g ∈ gates, g.Fits s.numQubits) : ∃ s', applyGates gates s = (s', none) := by
  induction gates generalizing s with
  | nil => exact ⟨s, rfl⟩
  | cons g rest ih =>
    obtain ⟨hg, hrest⟩ := List.forall_mem_cons.mp h
    obtain ⟨s', hs'⟩ := State.exists_applyGate hg
    rw [applyGates, hs']
    rw [← (State.applyGate_numQubits_sized hs').1] at hrest
    exact ih hrest

theorem exists_run {p : Program α} {s : State α} (hn : s.numQubits = p.numQubits)
    (h : ∀ g ∈ p.gates, g.Fits p.numQubits) : ∃ s', p.run s = (s', none) := by
  rw [run_eq_applyGates hn]
  rw [← hn] at h
  exact exists_applyGates h

end Program

/-! ## Observables -/

def Masks.add? (m : Masks) : ℕ × Axis → Option Masks
  | (q, .x) => (bit? q).map fun bit => { m with flip := m.flip ||| bit }
  | (q, .y) => (bit? q).map fun bit => ⟨m.flip ||| bit, m.sign ||| bit, m.ys + 1⟩
  | (q, .z) => (bit? q).map fun bit => { m with sign := m.sign ||| bit }

def Term.masks? (t : Term α) : Option Masks := t.ops.foldlM Masks.add? {}

omit [Scalar α] in
theorem Term.masks?_eq {t : Term α} {n : ℕ} (hn : n ≤ 64) (h : ∀ op ∈ t.ops, op.1 < n) :
    t.masks? = some t.masks ∧ t.masks.flip < 2 ^ n := by
  refine foldlM_eq_some (P := fun m : Masks => m.flip < 2 ^ n) (fun m hm op hop => ?_)
    (Nat.two_pow_pos n)
  obtain ⟨q, axis⟩ := op
  have hq : q < n := h (q, axis) hop
  have hbit : 2 ^ q < 2 ^ n := Nat.pow_lt_pow_right (by omega) hq
  have hword := bit?_eq (hq.trans_le hn)
  cases axis with
  | x => exact ⟨by simp [Masks.add?, Masks.add, hword], Nat.or_lt_two_pow hm hbit⟩
  | y => exact ⟨by simp [Masks.add?, Masks.add, hword], Nat.or_lt_two_pow hm hbit⟩
  | z => exact ⟨by simp [Masks.add?, Masks.add, hword], hm⟩

def weightedSum? (value? : Masks → Option (Cplx α)) (terms : List (Term α)) : Option (Cplx α) :=
  terms.foldlM (fun total t => do
    let masks ← t.masks?
    let value ← value? masks
    some (total + Cplx.scale t.coeff value)) 0

theorem weightedSum?_eq {value : Masks → Cplx α} {value? : Masks → Option (Cplx α)}
    {terms : List (Term α)} {n : ℕ} (hn : n ≤ 64)
    (hvalue : ∀ m, m.flip < 2 ^ n → value? m = some (value m))
    (h : ∀ t ∈ terms, ∀ op ∈ t.ops, op.1 < n) :
    weightedSum? value? terms = some (weightedSum value terms) := by
  refine (foldlM_eq_some (P := fun _ => True) (fun total _ t ht => ⟨?_, trivial⟩) trivial).1
  obtain ⟨hmasks, hflip⟩ := Term.masks?_eq hn (h t ht)
  simp only [hmasks, hvalue _ hflip, Option.bind_eq_bind, Option.bind_some]

/-! ## State vectors -/

namespace StateVector

def pauliValue? (s : StateVector α) (m : Masks) : Option (Cplx α) := do
  let values ← s.amplitudes.toList.zipIdx.mapM fun (a, i) =>
    s.amplitudes[i ^^^ m.flip]?.map fun b => b.conj * m.phase i * a
  some (sumOn s.options.device values)

def expectation? (s : StateVector α) (o : Observable α) :
    Option (Except EngineError (Cplx α)) :=
  match checkObservable o s.numQubits with
  | .error e => some (.error e)
  | .ok () => (weightedSum? s.pauliValue? o.terms).map .ok

theorem pauliValue?_eq {s : StateVector α} (hs : s.amplitudes.size = 2 ^ s.numQubits) {m : Masks}
    (hm : m.flip < 2 ^ s.numQubits) : s.pauliValue? m = some (s.pauliValue m) := by
  have hvalues : (s.amplitudes.toList.zipIdx.mapM fun (a, i) =>
      s.amplitudes[i ^^^ m.flip]?.map fun b => b.conj * m.phase i * a) =
      some (s.amplitudes.toList.zipIdx.map fun (a, i) =>
        (s.amplitude (i ^^^ m.flip)).conj * m.phase i * a) := by
    refine mapM_eq_map fun pair hpair => ?_
    obtain ⟨a, i⟩ := pair
    have hi : i < s.amplitudes.size := by simpa using List.snd_lt_of_mem_zipIdx hpair
    have hlt : i ^^^ m.flip < s.amplitudes.size := by
      rw [hs] at hi ⊢
      exact Nat.xor_lt_two_pow hi hm
    simp [amplitude, Array.getD, hlt]
  rw [pauliValue?, hvalues]
  rfl

theorem expectation?_eq {s : StateVector α} (hs : s.amplitudes.size = 2 ^ s.numQubits)
    (hn : s.numQubits < 64) {o : Observable α}
    (ho : ∀ t ∈ o.terms, ∀ op ∈ t.ops, op.1 < o.numQubits) :
    s.expectation? o = some (s.expectation o) := by
  unfold expectation? expectation
  cases hc : checkObservable o s.numQubits with
  | error e => rfl
  | ok u =>
    have hle := checkObservable_eq_ok.mp hc
    have hsum := weightedSum?_eq hn.le (fun m hm => pauliValue?_eq hs hm)
      fun t ht op hop => (ho t ht op hop).trans_le hle
    simp only [hsum]
    rfl

end StateVector

/-! ## Density matrices -/

namespace DensityMatrix

/-- The entry at a row and a column, if the shifted column fits a word. -/
def get? (d : DensityMatrix α) (row col : ℕ) : Option (Cplx α) :=
  if d.numQubits < 64 ∧ col <<< d.numQubits < 2 ^ 64 then
    d.elements[row ||| col <<< d.numQubits]?
  else none

def rowMajor? (d : DensityMatrix α) : Option (List (Cplx α)) := do
  let dim ← bit? d.numQubits
  (List.range (dim * dim)).mapM fun k => d.get? (k / dim) (k % dim)

def probabilities? (d : DensityMatrix α) : Option (List α) := do
  let dim ← bit? d.numQubits
  (List.range dim).mapM fun r => (d.get? r r).map (·.re)

def pauliValue? (d : DensityMatrix α) (m : Masks) : Option (Cplx α) := do
  let dim ← bit? d.numQubits
  let values ← (List.range dim).mapM fun r => (d.get? r (r ^^^ m.flip)).map (· * m.phase r)
  some (Cplx.sum values)

def expectation? (d : DensityMatrix α) (o : Observable α) :
    Option (Except EngineError (Cplx α)) :=
  match checkObservable o d.numQubits with
  | .error e => some (.error e)
  | .ok () => (weightedSum? d.pauliValue? o.terms).map .ok

variable {d : DensityMatrix α} (hd : d.elements.size = 2 ^ (2 * d.numQubits))
  (hn : 2 * d.numQubits < 64)

include hd hn

/-- The entries at all rows and columns lie in the buffer, and no bit of a column is lost. -/
theorem get?_eq {row col : ℕ} (hrow : row < 2 ^ d.numQubits) (hcol : col < 2 ^ d.numQubits) :
    d.get? row col = some (d.get row col) := by
  have hpow : 2 ^ d.numQubits * 2 ^ d.numQubits = 2 ^ (2 * d.numQubits) := by
    rw [← pow_add, two_mul]
  have hshift : col <<< d.numQubits < 2 ^ (2 * d.numQubits) := by
    rw [Nat.shiftLeft_eq, ← hpow]
    exact Nat.mul_lt_mul_of_pos_right hcol (Nat.two_pow_pos _)
  have hword : col <<< d.numQubits < 2 ^ 64 :=
    hshift.trans (Nat.pow_lt_pow_right (by omega) hn)
  have hrow' : row < 2 ^ (2 * d.numQubits) :=
    hrow.trans_le (Nat.pow_le_pow_right two_pos (by omega))
  have hindex : row ||| col <<< d.numQubits < d.elements.size := by
    rw [hd]
    exact Nat.or_lt_two_pow hrow' hshift
  rw [get?, if_pos ⟨by omega, hword⟩, get, place, Nat.mod_eq_of_lt hword]
  simp [Array.getD, hindex]

theorem rowMajor?_eq : d.rowMajor? = some d.rowMajor := by
  rw [rowMajor?, bit?_eq (by omega)]
  refine mapM_eq_map fun k hk => ?_
  have hk : k < 2 ^ d.numQubits * 2 ^ d.numQubits := List.mem_range.mp hk
  exact get?_eq hd hn (Nat.div_lt_of_lt_mul hk) (Nat.mod_lt k (Nat.two_pow_pos _))

theorem probabilities?_eq : d.probabilities? = some d.probabilities := by
  rw [probabilities?, bit?_eq (by omega)]
  refine mapM_eq_map fun r hr => ?_
  have hr := List.mem_range.mp hr
  rw [get?_eq hd hn hr hr]
  rfl

theorem pauliValue?_eq {m : Masks} (hm : m.flip < 2 ^ d.numQubits) :
    d.pauliValue? m = some (d.pauliValue m) := by
  have hvalues : ((List.range (2 ^ d.numQubits)).mapM fun r =>
      (d.get? r (r ^^^ m.flip)).map (· * m.phase r)) =
      some ((List.range (2 ^ d.numQubits)).map fun r =>
        d.get r (r ^^^ m.flip) * m.phase r) := by
    refine mapM_eq_map fun r hr => ?_
    have hr := List.mem_range.mp hr
    rw [get?_eq hd hn hr (Nat.xor_lt_two_pow hr hm)]
    rfl
  rw [pauliValue?, bit?_eq (by omega)]
  simp only [hvalues, Option.bind_eq_bind, Option.bind_some]
  rfl

theorem expectation?_eq {o : Observable α}
    (ho : ∀ t ∈ o.terms, ∀ op ∈ t.ops, op.1 < o.numQubits) :
    d.expectation? o = some (d.expectation o) := by
  unfold expectation? expectation
  cases hc : checkObservable o d.numQubits with
  | error e => rfl
  | ok u =>
    have hle := checkObservable_eq_ok.mp hc
    have hsum := weightedSum?_eq (by omega) (fun m hm => pauliValue?_eq hd hn hm)
      fun t ht op hop => (ho t ht op hop).trans_le hle
    simp only [hsum]
    rfl

end DensityMatrix

/-! ## Either representation -/

namespace State

def probabilities? : State α → Option (List α)
  | vector s => some s.probabilities
  | density d => d.probabilities?

def expectation? (s : State α) (o : Observable α) : Option (Except EngineError (Cplx α)) :=
  match s with
  | vector s => s.expectation? o
  | density d => d.expectation? o

namespace Addressable

variable {s : State α} (h : s.Addressable)

include h

theorem probabilities?_eq : s.probabilities? = some s.probabilities := by
  obtain ⟨hsized, hbits⟩ := h
  cases s with
  | vector s => rfl
  | density d => exact DensityMatrix.probabilities?_eq hsized hbits

theorem expectation?_eq {o : Observable α}
    (ho : ∀ t ∈ o.terms, ∀ op ∈ t.ops, op.1 < o.numQubits) :
    s.expectation? o = some (s.expectation o) := by
  obtain ⟨hsized, hbits⟩ := h
  cases s with
  | vector s => exact StateVector.expectation?_eq hsized hbits ho
  | density d => exact DensityMatrix.expectation?_eq hsized hbits ho

end Addressable

end State

end KetSim.Engine

import Mathlib
import KetSim.Engine.Program
import KetSim.Proofs.Engine.Kernel
import KetSim.Proofs.Outcome

/-! # Devices

The sequential device has a kernel for every gate, the accelerated one multiplies
by the matrix of the gate, block by block. In exact arithmetic both leave the
same entries, after one gate and hence after a run.
-/
namespace KetSim.Engine

variable {α : Type} [Scalar α]

namespace State

omit [Scalar α] in
def onDevice (device : Device) : State α → State α
  | vector s => vector { s with options := { s.options with device := device } }
  | density d => density { d with options := { d.options with device := device } }

def entries : State α → Array (Cplx α)
  | vector s => s.amplitudes
  | density d => d.elements

/-- A buffer with one entry for each index of the register, or for each pair of them. -/
def Sized : State α → Prop
  | vector s => s.amplitudes.size = 2 ^ s.numQubits
  | density d => d.elements.size = 2 ^ (2 * d.numQubits)

omit [Scalar α] in
@[simp] theorem numQubits_onDevice (device : Device) (s : State α) :
    (s.onDevice device).numQubits = s.numQubits := by
  cases s <;> rfl

omit [Scalar α] in
@[simp] theorem entries_onDevice (device : Device) (s : State α) :
    (s.onDevice device).entries = s.entries := by
  cases s <;> rfl

omit [Scalar α] in
@[simp] theorem sized_onDevice (device : Device) (s : State α) :
    (s.onDevice device).Sized ↔ s.Sized := by
  cases s <;> rfl

end State

/-! ## One gate -/

theorem keep_real (precision : Precision) (buffer : Array (Cplx ℝ)) :
    keep precision buffer = buffer := by
  cases precision with
  | double => rfl
  | single => exact Array.map_id buffer

omit [Scalar α] in
theorem Gate.Fits.shift {g : Gate α} {n : ℕ} (hg : g.Fits n) :
    (g.qubits.map (· + n)).Nodup ∧ ∀ q ∈ g.qubits.map (· + n), q < 2 * n := by
  refine ⟨hg.nodup.map fun a b h => by simpa using h, ?_⟩
  intro q hq
  obtain ⟨p, hp, rfl⟩ := List.mem_map.mp hq
  have := hg.lt p hp
  omega

omit [Scalar α] in
theorem Gate.Fits.lt_two_mul {g : Gate α} {n : ℕ} (hg : g.Fits n) : ∀ q ∈ g.qubits, q < 2 * n :=
  fun q hq => (hg.lt q hq).trans_le (by omega)

theorem StateVector.applyGate_eq {s : StateVector ℝ} (hs : s.amplitudes.size = 2 ^ s.numQubits)
    (g : Gate ℝ) :
    s.applyGate g = (g.check s.numQubits).map fun _ =>
      { s with amplitudes := keep s.options.precision (g.apply s.amplitudes) } := by
  unfold StateVector.applyGate
  cases hc : g.check s.numQubits with
  | error e => rfl
  | ok u =>
    have happly := applyOn_eq_apply .gpu (Gate.check_eq_ok.mp hc) hs
    cases hd : s.options.device <;> simp [bind, Except.bind, Except.map, happly]

theorem DensityMatrix.applyGate_eq {d : DensityMatrix α}
    (hd : d.elements.size = 2 ^ (2 * d.numQubits)) (g : Gate α) :
    d.applyGate g = (g.check d.numQubits).map fun _ =>
      { d with
        elements := keep d.options.precision
          (applyMatrix (g.qubits.map (· + d.numQubits)) (g.matrix.map Cplx.conj)
            (applyMatrix g.qubits g.matrix d.elements)) } := by
  unfold DensityMatrix.applyGate
  cases hc : g.check d.numQubits with
  | error e => rfl
  | ok u =>
    have hg := Gate.check_eq_ok.mp hc
    have hrows := applyOn_eq_applyMatrix d.options.device hg.nodup hg.lt_two_mul g.matrix hd
    have hsize : (applyMatrix g.qubits g.matrix d.elements).size = 2 ^ (2 * d.numQubits) := by
      rw [size_applyMatrix, hd]
    have hcols := applyOn_eq_applyMatrix d.options.device hg.shift.1 hg.shift.2
      (g.matrix.map Cplx.conj) hsize
    simp only [bind, Except.bind, Except.map, hrows, hcols]

namespace State

theorem applyGate_onDevice {s : State ℝ} (hs : s.Sized) (device : Device) (g : Gate ℝ) :
    (s.onDevice device).applyGate g = (s.applyGate g).map (onDevice device) := by
  cases s with
  | vector s =>
    simp only [onDevice, applyGate]
    rw [StateVector.applyGate_eq hs,
      StateVector.applyGate_eq (s := { s with options := { s.options with device := device } }) hs]
    cases g.check s.numQubits <;> rfl
  | density d =>
    simp only [onDevice, applyGate]
    rw [DensityMatrix.applyGate_eq hs,
      DensityMatrix.applyGate_eq (d := { d with options := { d.options with device := device } }) hs]
    cases g.check d.numQubits <;> rfl

theorem applyGate_numQubits_sized {s s' : State α} {g : Gate α} (h : s.applyGate g = .ok s') :
    s'.numQubits = s.numQubits ∧ (s.Sized → s'.Sized) := by
  cases s with
  | vector s =>
    obtain ⟨t, ht, rfl⟩ := map_eq_ok.mp h
    obtain ⟨-, hsize, hn, -⟩ := StateVector.applyGate_eq_ok ht
    exact ⟨hn, fun hs => by simp only [Sized] at hs ⊢; rw [hsize, hn, hs]⟩
  | density d =>
    obtain ⟨t, ht, rfl⟩ := map_eq_ok.mp h
    obtain ⟨-, hsize, hn, -⟩ := DensityMatrix.applyGate_eq_ok ht
    exact ⟨hn, fun hs => by simp only [Sized] at hs ⊢; rw [hsize, hn, hs]⟩

end State

/-! ## Allocation -/

theorem allocate_eq_ok {m bits : ℕ} {buffer : Array (Cplx ℝ)} (h : allocate m bits = .ok buffer) :
    bits < 59 ∧ Shows bits buffer Ket.zero := by
  unfold allocate at h
  split at h
  · cases h
  · split at h
    · cases h
    · obtain rfl := Except.ok.inj h
      refine ⟨by omega, by simp, ?_⟩
      intro x hx
      have hzero : (∀ q, x.testBit q = false) ↔ x = 0 :=
        ⟨Nat.zero_of_testBit_eq_false, by rintro rfl; simp⟩
      rw [getD_setIfInBounds, Ket.zero]
      by_cases h0 : x = 0
      · simp [h0]
      · simp [hzero, h0, Ne.symm h0, hx]

theorem StateVector.zero_eq_ok {n : ℕ} {o : Options} {s : StateVector ℝ}
    (h : StateVector.zero n o = .ok s) :
    s.numQubits = n ∧ n < 59 ∧ Shows n s.amplitudes Ket.zero := by
  obtain ⟨amplitudes, ha, hs⟩ := bind_eq_ok.mp h
  obtain rfl := Except.ok.inj hs
  obtain ⟨hlt, hshows⟩ := allocate_eq_ok ha
  exact ⟨rfl, hlt, hshows⟩

theorem DensityMatrix.zero_eq_ok {n : ℕ} {o : Options} {d : DensityMatrix ℝ}
    (h : DensityMatrix.zero n o = .ok d) :
    d.numQubits = n ∧ 2 * n < 59 ∧ Shows (2 * n) d.elements Ket.zero := by
  obtain ⟨elements, he, hd⟩ := bind_eq_ok.mp h
  obtain rfl := Except.ok.inj hd
  obtain ⟨hlt, hshows⟩ := allocate_eq_ok he
  exact ⟨rfl, hlt, hshows⟩

/-! ## Runs -/

namespace Program

theorem run_eq_applyGates {p : Program α} {s : State α}
    (h : s.numQubits = p.numQubits) : p.run s = applyGates p.gates s := by
  rw [run, if_neg (not_not.mpr h)]

theorem applyGates_onDevice {s : State ℝ} (hs : s.Sized) (device : Device)
    (gates : List (Gate ℝ)) :
    applyGates gates (s.onDevice device) =
      ((applyGates gates s).1.onDevice device, (applyGates gates s).2) := by
  induction gates generalizing s with
  | nil => rfl
  | cons g rest ih =>
    rw [applyGates, applyGates, State.applyGate_onDevice hs]
    cases hg : s.applyGate g with
    | error e => rfl
    | ok s' => exact ih ((State.applyGate_numQubits_sized hg).2 hs)

/-- A run on another device leaves the same state on that device, and stops at the same gate. -/
theorem run_onDevice (p : Program ℝ) {s : State ℝ} (hs : s.Sized) (device : Device) :
    p.run (s.onDevice device) = ((p.run s).1.onDevice device, (p.run s).2) := by
  unfold run
  rw [State.numQubits_onDevice]
  split
  · rfl
  · exact applyGates_onDevice hs device p.gates

theorem applyGates_numQubits (gates : List (Gate α)) (s : State α) :
    (applyGates gates s).1.numQubits = s.numQubits := by
  induction gates generalizing s with
  | nil => rfl
  | cons g rest ih =>
    rw [applyGates]
    cases hg : s.applyGate g with
    | error e => rfl
    | ok s' => exact (ih s').trans (State.applyGate_numQubits_sized hg).1

end Program

end KetSim.Engine

import Mathlib
import KetSim.Engine.Program
import KetSim.Proofs.Engine.Device
import KetSim.Proofs.Engine.Reduction
import KetSim.Proofs.Tensor

/-! # Density matrices and state vectors

A density matrix that starts as the projector onto a state vector stays the outer
product of that vector with itself: a gate multiplies the row bits by its matrix
and the column bits by the conjugate. Probabilities and expectation values then
agree, and a global phase of the vector does not show.
-/
namespace KetSim.Engine

/-! ## One gate -/

/-- The outer product of a ket with itself, the row in the low bits. -/
noncomputable def outer (n : ℕ) (ψ : Ket ℕ) : Ket ℕ := Ket.tensor n ψ ψ.conj

theorem entriesOf_map_conj (m : Array (Cplx ℝ)) (dim : ℕ) :
    entriesOf (m.map Cplx.conj) dim = fun r c => starRingEnd ℂ (entriesOf m dim r c) := by
  funext r c
  simp only [entriesOf, Array.getD_eq_getD_getElem?, Array.getElem?_map]
  cases m[r * dim + c]? <;> simp

theorem shows_outer {n : ℕ} {buffer : Array (Cplx ℝ)} {ψ : Ket ℕ}
    (h : Shows (2 * n) buffer (outer n ψ)) {g : Gate ℝ} (hg : g.Fits n) :
    Shows (2 * n) (applyMatrix (g.qubits.map (· + n)) (g.matrix.map Cplx.conj)
      (applyMatrix g.qubits g.matrix buffer)) (outer n (g.action ψ)) := by
  have hrows := shows_applyMatrix h hg.nodup hg.lt_two_mul g.matrix
  have hcols := shows_applyMatrix hrows hg.shift.1 hg.shift.2 (g.matrix.map Cplx.conj)
  rw [outer, Ket.dense_tensor_low hg.lt, Ket.dense_tensor_high, List.length_map, entriesOf_map_conj,
    Ket.dense_conj, Gate.dense_matrix] at hcols
  exact hcols

/-! ## Outer products -/

/-- The products of each entry with the conjugate of each, row by row. -/
def outerProduct {α : Type} [Scalar α] (xs : List (Cplx α)) : List (Cplx α) :=
  xs.flatMap fun a => xs.map fun b => a * b.conj

theorem map_range_mul {β : Type} (f : ℕ → ℕ → β) (m n : ℕ) :
    (List.range (m * n)).map (fun k => f (k / n) (k % n)) =
      (List.range m).flatMap fun r => (List.range n).map (f r) := by
  induction m with
  | zero => simp
  | succ m ih =>
    rw [Nat.succ_mul, List.range_add, List.map_append, ih, List.range_succ, List.flatMap_append,
      List.flatMap_cons, List.flatMap_nil, List.append_nil, List.map_map]
    congr 1
    apply List.map_congr_left
    intro c hc
    have hc := List.mem_range.mp hc
    have hdiv : (m * n + c) / n = m := mul_add_div_right_of_lt hc m
    have hmod : (m * n + c) % n = c := Nat.mul_add_mod_of_lt hc
    rw [Function.comp_apply, hdiv, hmod]

/-- A density matrix is the outer product of a state vector with itself. -/
structure IsOuter (d : DensityMatrix ℝ) (s : StateVector ℝ) : Prop where
  numQubits : d.numQubits = s.numQubits
  shows : ∃ ψ, Shows s.numQubits s.amplitudes ψ ∧
    Shows (2 * s.numQubits) d.elements (outer s.numQubits ψ)

theorem shows_outer_zero {n : ℕ} {buffer : Array (Cplx ℝ)} (h : Shows (2 * n) buffer Ket.zero) :
    Shows (2 * n) buffer (outer n Ket.zero) := by
  apply h.congr
  intro x _
  have hsplit : (∀ q, x.testBit q = false) ↔
      (∀ q, Ket.low n x.testBit q = false) ∧ ∀ q, Ket.high n x.testBit q = false := by
    constructor
    · intro hx
      exact ⟨fun q => by simp [Ket.low, hx], fun q => hx _⟩
    · rintro ⟨hlow, hhigh⟩ q
      by_cases hq : q < n
      · simpa [Ket.low, hq] using hlow q
      · simpa [Ket.high, Nat.sub_add_cancel (not_lt.mp hq)] using hhigh (q - n)
  simp only [outer, Ket.tensor, Ket.conj, Ket.zero, hsplit]
  split_ifs <;> simp_all

theorem isOuter_zero {n : ℕ} {o o' : Options} {d : DensityMatrix ℝ} {s : StateVector ℝ}
    (hd : DensityMatrix.zero n o = .ok d) (hs : StateVector.zero n o' = .ok s) : IsOuter d s := by
  obtain ⟨hdn, -, hdshows⟩ := DensityMatrix.zero_eq_ok hd
  obtain ⟨hsn, -, hsshows⟩ := StateVector.zero_eq_ok hs
  refine ⟨hdn.trans hsn.symm, Ket.zero, ?_, ?_⟩
  · rw [hsn]
    exact hsshows
  · rw [hsn]
    exact shows_outer_zero hdshows

theorem shows_multiply {n : ℕ} {s : StateVector ℝ} {ψ : Ket ℕ} (h : Shows n s.amplitudes ψ)
    (factor : Cplx ℝ) :
    Shows n (s.multiply factor).amplitudes fun y => ψ y * factor.toComplex := by
  rw [StateVector.multiply_eq]
  refine ⟨by simp [h.size], ?_⟩
  intro x hx
  have hlt : x < s.amplitudes.size := by rw [h.size]; exact hx
  have hx' := h.entry x hx
  simp only [Array.getD_eq_getD_getElem?, Array.getElem?_eq_getElem hlt, Option.getD_some] at hx'
  simp [hlt, hx']

theorem StateVector.toList_amplitudes {s : StateVector ℝ}
    (hs : s.amplitudes.size = 2 ^ s.numQubits) :
    s.amplitudes.toList = (List.range (2 ^ s.numQubits)).map s.amplitude := by
  apply List.ext_getElem
  · simp [hs]
  · intro x h1 h2
    have hx : x < s.amplitudes.size := by simpa using h1
    simp [StateVector.amplitude, hx]

theorem zipIdx_map_range {β : Type} (f : ℕ → β) (m : ℕ) :
    ((List.range m).map f).zipIdx = (List.range m).map fun i => (f i, i) := by
  apply List.ext_getElem
  · simp
  · intro i h1 h2
    simp

theorem checkObservable_eq_ok {α : Type} {o : Observable α} {n : ℕ} :
    checkObservable o n = .ok () ↔ o.numQubits ≤ n := by
  unfold checkObservable
  split
  · simp
    omega
  · simp
    omega

namespace IsOuter

variable {d : DensityMatrix ℝ} {s : StateVector ℝ}

theorem sized (h : IsOuter d s) :
    d.elements.size = 2 ^ (2 * d.numQubits) ∧ s.amplitudes.size = 2 ^ s.numQubits := by
  obtain ⟨ψ, hs, hd⟩ := h.shows
  exact ⟨by rw [hd.size, h.numQubits], hs.size⟩

theorem get_eq (h : IsOuter d s) (hn : s.numQubits ≤ 32) {r c : ℕ} (hr : r < 2 ^ s.numQubits)
    (hc : c < 2 ^ s.numQubits) : d.get r c = s.amplitude r * (s.amplitude c).conj := by
  obtain ⟨ψ, hs, hd⟩ := h.shows
  have hshift : c <<< s.numQubits < 2 ^ (2 * s.numQubits) := by
    rw [Nat.shiftLeft_eq, two_mul, pow_add]
    exact Nat.mul_lt_mul_of_pos_right hc (Nat.two_pow_pos _)
  have hplace : d.place r c = r ||| c <<< s.numQubits := by
    rw [DensityMatrix.place, h.numQubits, Nat.mod_eq_of_lt]
    exact hshift.trans_le (Nat.pow_le_pow_right (by omega) (by omega))
  have hlt : r ||| c <<< s.numQubits < 2 ^ (2 * s.numQubits) :=
    Nat.or_lt_two_pow (hr.trans_le (Nat.pow_le_pow_right (by omega) (by omega))) hshift
  have hlow : Ket.low s.numQubits (r ||| c <<< s.numQubits).testBit = r.testBit := by
    funext p
    by_cases hp : p < s.numQubits
    · simp [Ket.low, hp]
    · have hbit := Ket.testBit_of_le hr (not_lt.mp hp)
      simp [Ket.low, hp, hbit]
  have hhigh : Ket.high s.numQubits (r ||| c <<< s.numQubits).testBit = c.testBit := by
    funext p
    have hbit := Ket.testBit_of_le hr (Nat.le_add_left s.numQubits p)
    simp [Ket.high, hbit]
  apply Cplx.toComplex_injective
  rw [DensityMatrix.get, hplace, hd.entry _ hlt, outer, Ket.tensor, Ket.conj, hlow, hhigh,
    Cplx.toComplex_mul, Cplx.toComplex_conj, StateVector.amplitude, StateVector.amplitude,
    hs.entry r hr, hs.entry c hc]

theorem applyGate (h : IsOuter d s) (g : Gate ℝ) :
    (∃ e, d.applyGate g = .error e ∧ s.applyGate g = .error e) ∨
      ∃ d' s', d.applyGate g = .ok d' ∧ s.applyGate g = .ok s' ∧ IsOuter d' s' := by
  rw [DensityMatrix.applyGate_eq h.sized.1, StateVector.applyGate_eq h.sized.2, h.numQubits]
  simp only [keep_real]
  cases hc : g.check s.numQubits with
  | error e => exact .inl ⟨e, rfl, rfl⟩
  | ok u =>
    obtain ⟨ψ, hψ, hφ⟩ := h.shows
    have hg := Gate.check_eq_ok.mp hc
    exact .inr ⟨_, _, rfl, rfl, rfl, g.action ψ, shows_apply hψ hg, shows_outer hφ hg⟩

/-- Both representations stop at the same gate, and the outer product is kept up to there. -/
theorem applyGates (h : IsOuter d s) (gates : List (Gate ℝ)) :
    ∃ d' s' e, Program.applyGates gates (.density d) = (.density d', e) ∧
      Program.applyGates gates (.vector s) = (.vector s', e) ∧ IsOuter d' s' := by
  induction gates generalizing d s with
  | nil => exact ⟨d, s, none, rfl, rfl, h⟩
  | cons g rest ih =>
    obtain ⟨e, hde, hse⟩ | ⟨d', s', hdo, hso, h'⟩ := h.applyGate g
    · refine ⟨d, s, some e, ?_, ?_, h⟩
      · simp [Program.applyGates, State.applyGate, hde, Except.map]
      · simp [Program.applyGates, State.applyGate, hse, Except.map]
    · obtain ⟨d'', s'', e, h1, h2, h3⟩ := ih h'
      refine ⟨d'', s'', e, ?_, ?_, h3⟩
      · simpa [Program.applyGates, State.applyGate, hdo, Except.map] using h1
      · simpa [Program.applyGates, State.applyGate, hso, Except.map] using h2

theorem multiply (h : IsOuter d s) (angle : ℝ) : IsOuter d (s.multiply (Cplx.cis angle)) := by
  obtain ⟨ψ, hs, hd⟩ := h.shows
  refine ⟨h.numQubits, _, shows_multiply hs (Cplx.cis angle), ?_⟩
  have hone := Cplx.conj_cis_mul angle
  rw [Cplx.toComplex_cis] at hone
  apply hd.congr
  intro x _
  simp only [outer, Ket.tensor, Ket.conj, map_mul, Cplx.toComplex_cis, StateVector.multiply_eq]
  linear_combination (-(ψ (Ket.low s.numQubits x.testBit)) *
    starRingEnd ℂ (ψ (Ket.high s.numQubits x.testBit))) * hone

theorem probabilities_eq (h : IsOuter d s) (hn : s.numQubits ≤ 32) :
    d.probabilities = s.probabilities := by
  rw [DensityMatrix.probabilities, DensityMatrix.dim, h.numQubits, StateVector.probabilities_eq,
    StateVector.toList_amplitudes h.sized.2, List.map_map]
  apply List.map_congr_left
  intro x hx
  have hx := List.mem_range.mp hx
  rw [h.get_eq hn hx hx, Cplx.re_mul_conj, Function.comp_apply]

theorem rowMajor_eq (h : IsOuter d s) (hn : s.numQubits ≤ 32) :
    d.rowMajor = outerProduct s.amplitudes.toList := by
  rw [DensityMatrix.rowMajor, DensityMatrix.dim, h.numQubits, map_range_mul, outerProduct,
    StateVector.toList_amplitudes h.sized.2, List.flatMap_map]
  apply List.flatMap_congr
  intro r hr
  rw [List.map_map]
  apply List.map_congr_left
  intro c hc
  exact h.get_eq hn (List.mem_range.mp hr) (List.mem_range.mp hc)

theorem pauliValue_eq (h : IsOuter d s) (hn : s.numQubits ≤ 32) {m : Masks}
    (hm : m.flip < 2 ^ s.numQubits) : d.pauliValue m = s.pauliValue m := by
  rw [DensityMatrix.pauliValue, s.pauliValue_real, StateVector.pauliTerms,
    StateVector.toList_amplitudes h.sized.2, zipIdx_map_range, List.map_map, DensityMatrix.dim,
    h.numQubits]
  congr 1
  apply List.map_congr_left
  intro r hr
  have hr := List.mem_range.mp hr
  rw [h.get_eq hn hr (Nat.xor_lt_two_pow hr hm)]
  apply Cplx.toComplex_injective
  simp only [Function.comp_apply, Cplx.toComplex_mul, Cplx.toComplex_conj]
  ring

theorem expectation_eq (h : IsOuter d s) (hn : s.numQubits ≤ 32) {o : Observable ℝ}
    (ho : ∀ t ∈ o.terms, t.masks.flip < 2 ^ o.numQubits) : d.expectation o = s.expectation o := by
  unfold DensityMatrix.expectation StateVector.expectation
  rw [h.numQubits]
  cases hc : checkObservable o s.numQubits with
  | error e => rfl
  | ok u =>
    have hle := checkObservable_eq_ok.mp hc
    have hvalue : ∀ t ∈ o.terms, d.pauliValue t.masks = s.pauliValue t.masks := fun t ht =>
      h.pauliValue_eq hn ((ho t ht).trans_le (Nat.pow_le_pow_right two_pos hle))
    simp only [bind, Except.bind, Except.ok.injEq, weightedSum]
    apply List.foldl_ext _ _ _
    intro total t ht
    rw [hvalue t ht]

end IsOuter

/-! ## Runs of fitting gates -/

theorem StateVector.applyGates_shows {s : StateVector ℝ} {ψ : Ket ℕ}
    (h : Shows s.numQubits s.amplitudes ψ) {gates : List (Gate ℝ)}
    (hg : ∀ g ∈ gates, g.Fits s.numQubits) :
    ∃ s', Program.applyGates gates (.vector s) = (.vector s', none) ∧
      s'.numQubits = s.numQubits ∧
      Shows s.numQubits s'.amplitudes (gates.foldl (fun φ g => g.action φ) ψ) := by
  induction gates generalizing s ψ with
  | nil => exact ⟨s, rfl, rfl, h⟩
  | cons g rest ih =>
    obtain ⟨hg, hrest⟩ := List.forall_mem_cons.mp hg
    have hstep : s.applyGate g = .ok { s with amplitudes := g.apply s.amplitudes } := by
      rw [StateVector.applyGate_eq h.size, Gate.check_eq_ok.mpr hg, keep_real]
      rfl
    obtain ⟨s', hrun, hn, hshows⟩ := ih (s := { s with amplitudes := g.apply s.amplitudes })
      (shows_apply h hg) hrest
    refine ⟨s', ?_, hn, hshows⟩
    simpa [Program.applyGates, State.applyGate, hstep, Except.map] using hrun

theorem IsOuter.applyGates_of_fits {d : DensityMatrix ℝ} {v : StateVector ℝ} (h : IsOuter d v)
    {gates : List (Gate ℝ)} (hg : ∀ g ∈ gates, g.Fits v.numQubits) :
    ∃ d' v', Program.applyGates gates (.density d) = (.density d', none) ∧
      Program.applyGates gates (.vector v) = (.vector v', none) ∧ IsOuter d' v' := by
  obtain ⟨d', v', e, hd', hv', houter⟩ := h.applyGates gates
  obtain ⟨ψ, hψ, -⟩ := h.shows
  obtain ⟨w, hw, -, -⟩ := StateVector.applyGates_shows hψ hg
  rw [hv'] at hw
  obtain ⟨-, rfl⟩ := Prod.mk.inj hw
  exact ⟨d', v', hd', hv', houter⟩

theorem StateVector.probabilities_of_shows {n : ℕ} {v : StateVector ℝ} {φ : Ket ℕ}
    (h : Shows n v.amplitudes φ) :
    v.probabilities.length = 2 ^ n ∧
      ∀ x < 2 ^ n, v.probabilities.getD x 0 = Complex.normSq (φ x.testBit) := by
  rw [StateVector.probabilities_eq]
  refine ⟨by simp [h.size], ?_⟩
  intro x hx
  have hlt : x < v.amplitudes.size := by rw [h.size]; exact hx
  have hentry := h.entry x hx
  rw [Array.getD_eq_getD_getElem?, Array.getElem?_eq_getElem hlt, Option.getD_some] at hentry
  rw [← hentry, ← Cplx.normSq_eq]
  simp [hlt]

theorem exists_vector_zero {n : ℕ} {o o' : Options} {d : DensityMatrix ℝ}
    (h : DensityMatrix.zero n o = .ok d) :
    ∃ v : StateVector ℝ, StateVector.zero n o' = .ok v := by
  obtain ⟨-, hlt, -⟩ := DensityMatrix.zero_eq_ok h
  rw [StateVector.zero, allocate, if_neg (by omega), if_neg (by omega)]
  exact ⟨_, rfl⟩

/-! ## Observables -/

theorem flip_foldl_add {n : ℕ} {ops : List (ℕ × Axis)} (hops : ∀ op ∈ ops, op.1 < n) {m : Masks}
    (hm : m.flip < 2 ^ n) : (ops.foldl Masks.add m).flip < 2 ^ n := by
  induction ops generalizing m with
  | nil => exact hm
  | cons op rest ih =>
    obtain ⟨q, axis⟩ := op
    have hq : 2 ^ q < 2 ^ n := Nat.pow_lt_pow_right (by omega) (hops (q, axis) List.mem_cons_self)
    refine ih (fun op hop => hops op (List.mem_cons_of_mem _ hop)) ?_
    cases axis
    · exact Nat.or_lt_two_pow hm hq
    · exact Nat.or_lt_two_pow hm hq
    · exact hm

end KetSim.Engine

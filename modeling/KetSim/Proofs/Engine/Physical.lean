import KetSim.Proofs.Engine.Density
import KetSim.Proofs.Engine.Observable
import KetSim.Proofs.Engine.Picks
import KetSim.Proofs.Engine.Unitary

/-! # Physical states

A run of fitting gates keeps the norm of a state vector. From the state of all
qubits zero a state vector keeps norm one, and a density matrix keeps trace one
and equals its conjugate transpose. The probabilities are then those of a
distribution, and the sampler compares its draws as they are.
-/
namespace KetSim.Engine

/-! ## Distributions -/

theorem cumulative_length {ps : List ℝ} (hp : ∀ p ∈ ps, 0 ≤ p) :
    cumulative ps ps.length = ps.sum := by
  have hclamp : ps.map Scalar.clamp = ps := by
    conv_rhs => rw [← List.map_id ps]
    apply List.map_congr_left
    intro p hmem
    rw [Scalar.clamp_real, max_eq_left (hp p hmem), id]
  rw [cumulative, List.take_length, hclamp]

/-- Nonnegative probabilities of total one, by which the sampler scales its draws. -/
structure State.Physical (s : State ℝ) : Prop where
  nonneg : ∀ p ∈ s.probabilities, 0 ≤ p
  total : s.probabilities.sum = 1
  scale : (runningSums 0 s.probabilities).toArray.back? = some 1
  sample : ∀ shots seed, s.sample shots seed =
    ((Random.draws seed shots).map unitDraw).map (pick (runningSums 0 s.probabilities).toArray 1)

theorem State.physical_of_total {s : State ℝ} (hp : ∀ p ∈ s.probabilities, 0 ≤ p)
    (htotal : s.probabilities.sum = 1) : s.Physical := by
  have hne : s.probabilities ≠ [] := by
    intro h
    rw [h] at htotal
    simp at htotal
  have hlength : cumulative s.probabilities s.probabilities.length = 1 := by
    rw [cumulative_length hp, htotal]
  refine ⟨hp, htotal, ?_, fun shots seed => ?_⟩
  · rw [back?_runningSums hne, hlength]
  · rw [State.sample, Engine.sample, pickAll_eq hne, hlength]

/-! ## State vectors -/

section Vector

variable {n : ℕ} {s : StateVector ℝ} {ψ : Ket ℕ}

theorem StateVector.sum_probabilities (h : Shows n s.amplitudes ψ) :
    s.probabilities.sum = mass n ψ := by
  obtain ⟨hlength, hentry⟩ := StateVector.probabilities_of_shows h
  have hlist : s.probabilities =
      (List.range (2 ^ n)).map fun x => Complex.normSq (ψ x.testBit) := by
    apply List.ext_getElem (by simpa using hlength)
    intro x hx hx'
    rw [← List.getD_eq_getElem _ 0 hx, hentry x (hlength ▸ hx)]
    simp
  rw [hlist, mass]
  rfl

theorem StateVector.normSquared_eq (h : Shows n s.amplitudes ψ) : s.normSquared = mass n ψ := by
  rw [StateVector.normSquared, ← StateVector.probabilities_eq, ← List.sum_eq_foldl,
    StateVector.sum_probabilities h]

theorem StateVector.probabilities_nonneg (s : StateVector ℝ) : ∀ p ∈ s.probabilities, 0 ≤ p := by
  intro p hp
  rw [StateVector.probabilities_eq] at hp
  obtain ⟨a, -, rfl⟩ := List.mem_map.mp hp
  rw [Cplx.normSq_eq]
  exact Complex.normSq_nonneg _

/-- A state vector of norm one is physical. -/
theorem StateVector.physical (h : Shows n s.amplitudes ψ) (hmass : mass n ψ = 1) :
    (State.vector s).Physical :=
  State.physical_of_total s.probabilities_nonneg ((StateVector.sum_probabilities h).trans hmass)

end Vector

/-! ## Density matrices -/

namespace IsOuter

variable {d : DensityMatrix ℝ} {s : StateVector ℝ}

theorem trace_eq (h : IsOuter d s) (hn : s.numQubits ≤ 32) {ψ : Ket ℕ}
    (hψ : Shows s.numQubits s.amplitudes ψ) : d.trace.toComplex = mass s.numQubits ψ := by
  rw [DensityMatrix.trace, DensityMatrix.dim, h.numQubits, toComplex_sum_range, mass,
    Complex.ofReal_sum]
  apply Finset.sum_congr rfl
  intro r hr
  have hr := Finset.mem_range.mp hr
  rw [h.get_eq hn hr hr, Cplx.toComplex_mul, Cplx.toComplex_conj, Complex.mul_conj,
    StateVector.amplitude, hψ.entry r hr]

theorem get_swap (h : IsOuter d s) (hn : s.numQubits ≤ 32) {r c : ℕ} (hr : r < 2 ^ s.numQubits)
    (hc : c < 2 ^ s.numQubits) : d.get c r = (d.get r c).conj := by
  apply Cplx.toComplex_injective
  rw [h.get_eq hn hr hc, h.get_eq hn hc hr]
  simp [mul_comm]

theorem physical (h : IsOuter d s) (hn : s.numQubits ≤ 32) (hs : (State.vector s).Physical) :
    (State.density d).Physical := by
  have hprobabilities : (State.density d).probabilities = (State.vector s).probabilities :=
    h.probabilities_eq hn
  exact State.physical_of_total (hprobabilities ▸ hs.nonneg) (hprobabilities ▸ hs.total)

end IsOuter

/-! ## Runs -/

section Runs

variable {n : ℕ} {gates : List (Gate ℝ)}

theorem StateVector.exists_run {s : StateVector ℝ} (hn : s.numQubits = n) {ψ : Ket ℕ}
    (hψ : Shows n s.amplitudes ψ) (hg : ∀ g ∈ gates, g.Fits n) :
    ∃ s' φ, Program.applyGates gates (.vector s) = (.vector s', none) ∧ s'.numQubits = n ∧
      Shows n s'.amplitudes φ ∧ mass n φ = mass n ψ := by
  subst hn
  obtain ⟨s', hrun, hn, hshows⟩ := StateVector.applyGates_shows hψ hg
  exact ⟨s', _, hrun, hn, hshows, mass_foldl_action hg ψ⟩

/-- A density matrix that starts with all qubits zero is the outer product of a vector of norm one
after the gates. -/
theorem DensityMatrix.exists_run {o : Options} {d : DensityMatrix ℝ}
    (hd : DensityMatrix.zero n o = .ok d) (hg : ∀ g ∈ gates, g.Fits n) :
    ∃ d' s φ, Program.applyGates gates (.density d) = (.density d', none) ∧ IsOuter d' s ∧
      s.numQubits = n ∧ n ≤ 32 ∧ Shows n s.amplitudes φ ∧ mass n φ = 1 := by
  obtain ⟨start, hstart⟩ : ∃ s : StateVector ℝ, StateVector.zero n o = .ok s :=
    exists_vector_zero hd
  obtain ⟨hn, -, hzero⟩ := StateVector.zero_eq_ok hstart
  obtain ⟨-, hlt, -⟩ := DensityMatrix.zero_eq_ok hd
  obtain ⟨s, φ, hrun, hsn, hφ, hmass⟩ := StateVector.exists_run hn hzero hg
  obtain ⟨d', s', hrun', hvector, houter⟩ :=
    (isOuter_zero hd hstart).applyGates_of_fits (hn.symm ▸ hg)
  rw [hrun] at hvector
  obtain rfl := State.vector.inj (congrArg Prod.fst hvector)
  exact ⟨d', s, φ, hrun', houter, hsn, by omega, hφ, hmass.trans (mass_zero n)⟩

/-- Gates that fit the register keep a state physical, on either device. A state vector keeps its
norm, and from the state of all qubits zero the norm is one; a density matrix that starts there
keeps trace one and stays Hermitian. -/
theorem evolution_preserves_physicality (hg : ∀ g ∈ gates, g.check n = .ok ()) :
    (∀ s : StateVector ℝ, s.numQubits = n → s.amplitudes.size = 2 ^ n →
      ∃ s', Program.applyGates gates (.vector s) = (.vector s', none) ∧
        s'.normSquared = s.normSquared ∧
        (s.normSquared = 1 → (State.vector s').Physical)) ∧
    (∀ (o : Options) (s : StateVector ℝ), StateVector.zero n o = .ok s →
      ∃ s', Program.applyGates gates (.vector s) = (.vector s', none) ∧
        s'.normSquared = 1 ∧ (State.vector s').Physical) ∧
    ∀ (o : Options) (d : DensityMatrix ℝ), DensityMatrix.zero n o = .ok d →
      ∃ d', Program.applyGates gates (.density d) = (.density d', none) ∧
        d'.trace = 1 ∧ (∀ r < 2 ^ n, ∀ c < 2 ^ n, d'.get c r = (d'.get r c).conj) ∧
        (State.density d').Physical := by
  have hfits : ∀ g ∈ gates, g.Fits n := fun g hmem => Gate.check_eq_ok.mp (hg g hmem)
  refine ⟨fun s hn hsize => ?_, fun o s hs => ?_, fun o d hd => ?_⟩
  · obtain ⟨ψ, hψ⟩ := exists_shows hsize
    obtain ⟨s', φ, hrun, -, hφ, hmass⟩ := StateVector.exists_run hn hψ hfits
    refine ⟨s', hrun, ?_, fun hone => ?_⟩
    · rw [StateVector.normSquared_eq hφ, StateVector.normSquared_eq hψ, hmass]
    · rw [StateVector.normSquared_eq hψ] at hone
      exact StateVector.physical hφ (hmass.trans hone)
  · obtain ⟨hn, -, hzero⟩ := StateVector.zero_eq_ok hs
    obtain ⟨s', φ, hrun, -, hφ, hmass⟩ := StateVector.exists_run hn hzero hfits
    rw [mass_zero] at hmass
    exact ⟨s', hrun, (StateVector.normSquared_eq hφ).trans hmass, StateVector.physical hφ hmass⟩
  · obtain ⟨d', s, φ, hrun, houter, rfl, hsmall, hφ, hmass⟩ := DensityMatrix.exists_run hd hfits
    refine ⟨d', hrun, ?_, fun r hr c hc => houter.get_swap hsmall hr hc,
      houter.physical hsmall (StateVector.physical hφ hmass)⟩
    apply Cplx.toComplex_injective
    rw [houter.trace_eq hsmall hφ, hmass, Complex.ofReal_one, Cplx.toComplex_one]

/-- A turn and an entangling gate on two qubits, on the accelerated device. -/
theorem evolution_preserves_physicality_pair :
    (∀ g ∈ [Gate.u3 1 1 2 3, .cnot 1 0], (g : Gate ℝ).check 2 = .ok ()) ∧
      (∃ s s' : StateVector ℝ, StateVector.zero 2 ⟨.gpu, .double⟩ = .ok s ∧
        Program.applyGates [.u3 1 1 2 3, .cnot 1 0] (.vector s) = (.vector s', none) ∧
        s'.normSquared = 1 ∧ (State.vector s').Physical) ∧
      ∃ d d' : DensityMatrix ℝ, DensityMatrix.zero 2 ⟨.gpu, .double⟩ = .ok d ∧
        Program.applyGates [.u3 1 1 2 3, .cnot 1 0] (.density d) = (.density d', none) ∧
        d'.trace = 1 ∧ (State.density d').Physical := by
  have hg : ∀ g ∈ [Gate.u3 1 1 2 3, .cnot 1 0], (g : Gate ℝ).check 2 = .ok () := by
    intro g hg
    simp only [List.mem_cons, List.not_mem_nil, or_false] at hg
    rcases hg with rfl | rfl <;> rfl
  obtain ⟨-, hvector, hdensity⟩ := evolution_preserves_physicality hg
  obtain ⟨s', hrun, hnorm, hphysical⟩ := hvector ⟨.gpu, .double⟩ _ rfl
  obtain ⟨d', hrun', htrace, -, hphysical'⟩ := hdensity ⟨.gpu, .double⟩ _ rfl
  exact ⟨hg, ⟨_, s', rfl, hrun, hnorm, hphysical⟩, _, d', rfl, hrun', htrace, hphysical'⟩

end Runs

end KetSim.Engine

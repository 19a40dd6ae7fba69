import KetSim.Proofs.Backend.Final
import KetSim.Proofs.Backend.Reachable
import KetSim.Proofs.Engine.Observable

/-! # Backends on different representations

A run of gates on the density matrix of all qubits zero leaves, after every step,
the outer product of what it leaves on the state vector. Backends that differ in
the representation only therefore give corresponding data: the outer product of
the vector for a state, and the same shots and expectation values.
-/
namespace KetSim

/-! ## Observables -/

def Engine.Observable.InRange {α : Type} (o : Engine.Observable α) : Prop :=
  ∀ t ∈ o.terms, ∀ op ∈ t.ops, op.1 < o.numQubits

theorem Engine.Observable.InRange.flip_lt {α : Type} {o : Engine.Observable α} (h : o.InRange)
    {t : Engine.Term α} (ht : t ∈ o.terms) : t.masks.flip < 2 ^ o.numQubits :=
  Engine.flip_foldl_add (h t ht) (Nat.two_pow_pos _)

theorem QubitLayout.assembled_observable {α : Type} {layout : QubitLayout} {op : PauliOperator α}
    {o : Engine.Observable α} (h : layout.observable op = .ok o) :
    o.Assembled layout.numQubits := by
  have hfold (terms : List (PauliString × α)) (start : Engine.Observable α)
      (hs : start.Assembled layout.numQubits) (ho : terms.foldlM layout.addTerm start = .ok o) :
      o.Assembled layout.numQubits := by
    induction terms generalizing start with
    | nil => exact Except.ok.inj ho ▸ hs
    | cons term rest ih =>
      rw [List.foldlM_cons] at ho
      obtain ⟨next, hnext, hrest⟩ := bind_eq_ok.mp ho
      obtain ⟨ops, -, hterm⟩ := bind_eq_ok.mp hnext
      exact ih next (.add hs (mapError_eq_ok.mp hterm)) hrest
  exact hfold op.terms _ .empty h

theorem QubitLayout.observable_inRange {α : Type} {layout : QubitLayout} {op : PauliOperator α}
    {o : Engine.Observable α} (h : layout.observable op = .ok o) : o.InRange := by
  have ho := assembled_observable h
  exact fun t ht => ho.numQubits.symm ▸ (ho.placed t ht).lt

/-! ## Requests -/

/-- How the data of a request on a state vector and on a density matrix belong together. -/
def RunMode.Corresponds : RunMode ℝ → ResultData ℝ → ResultData ℝ → Prop
  | .state, r, r' => ∃ xs, r = .stateVector xs ∧ r' = .densityMatrix (Engine.outerProduct xs)
  | .shots _ _, r, r' => ∃ table, r = .shots table ∧ r' = .shots table
  | .expectation _, r, r' => ∃ value, r = .expectation value ∧ r' = .expectation value

namespace Execution

theorem shotTable_eq {d : Engine.DensityMatrix ℝ} {v : Engine.StateVector ℝ}
    (h : Engine.IsOuter d v) (hn : v.numQubits ≤ 32) (k : Compiled ℝ) (count : ℕ) (seed : UInt64) :
    shotTable k count seed (.density d) = shotTable k count seed (.vector v) := by
  simp only [shotTable, Engine.State.sample, Engine.State.probabilities, h.probabilities_eq hn]

theorem expectation_eq {d : Engine.DensityMatrix ℝ} {v : Engine.StateVector ℝ}
    (h : Engine.IsOuter d v) (hn : v.numQubits ≤ 32) (s : Settings) (k : Compiled ℝ)
    (op : PauliOperator ℝ) : expectation s k op (.density d) = expectation s k op (.vector v) := by
  unfold expectation
  cases ho : k.layout.observable op with
  | error e => rfl
  | ok o =>
    have hrange := QubitLayout.observable_inRange ho
    have hvalue := h.expectation_eq hn fun t ht => hrange.flip_lt ht
    simp only [Except.mapError, bind, Except.bind, Engine.State.expectation, hvalue]

theorem execute_corresponds {s : Settings} {entropy entropy' : UInt64}
    {k : Compiled ℝ} {phase : ℝ} {mode : RunMode ℝ} {r r' : ResultData ℝ × Option UInt64}
    (h : execute { s with representation := .stateVector } entropy k phase mode = .ok r)
    (h' : execute { s with representation := .densityMatrix } entropy' k phase mode = .ok r')
    (hseed : r.2 = r'.2) : mode.Corresponds r.1 r'.1 := by
  obtain ⟨state, hstate, hr⟩ := bind_eq_ok.mp h
  obtain ⟨state', hstate', hr'⟩ := bind_eq_ok.mp h'
  obtain ⟨d, v, rfl, rfl, houter, hn⟩ := finalState_isOuter (by rfl) (by rfl) hstate' hstate
  have hn : v.numQubits ≤ 32 := by omega
  cases mode with
  | state =>
    obtain rfl := Except.ok.inj hr
    obtain rfl := Except.ok.inj hr'
    exact ⟨v.amplitudes.toList, rfl, by rw [← houter.rowMajor_eq hn]; rfl⟩
  | shots count own =>
    obtain rfl := Except.ok.inj hr
    obtain rfl := Except.ok.inj hr'
    have hseed := Option.some.inj hseed
    exact ⟨_, rfl, by rw [← hseed, shotTable_eq houter hn]⟩
  | expectation op =>
    obtain ⟨value, hvalue, hr⟩ := bind_eq_ok.mp hr
    obtain ⟨value', hvalue', hr'⟩ := bind_eq_ok.mp hr'
    obtain rfl := Except.ok.inj hr
    obtain rfl := Except.ok.inj hr'
    have hsame : expectation { s with representation := .densityMatrix } k op (.vector v) =
        expectation { s with representation := .stateVector } k op (.vector v) := rfl
    rw [expectation_eq houter hn, hsame, hvalue] at hvalue'
    obtain rfl := Except.ok.inj hvalue'
    exact ⟨value, rfl, rfl⟩

end Execution

namespace Backend

variable [DecimalText ℝ]

/-- The density matrix refines the state vector: from all qubits zero, gates that pass their check
leave the products of the amplitudes with the conjugate ones, and requests to backends that differ
in the representation only come to corresponding data if both succeed with the same seed. -/
theorem density_matrix_refines_state_vector :
    (∀ (n : ℕ) (o o' : Engine.Options) (d : Engine.DensityMatrix ℝ) (v : Engine.StateVector ℝ),
        Engine.DensityMatrix.zero n o = .ok d → Engine.StateVector.zero n o' = .ok v →
      ∀ gates : List (Engine.Gate ℝ), (∀ g ∈ gates, g.check n = .ok ()) →
        ∃ d' v', Engine.Program.applyGates gates (.density d) = (.density d', none) ∧
          Engine.Program.applyGates gates (.vector v) = (.vector v', none) ∧
          ∀ r < 2 ^ n, ∀ c < 2 ^ n, d'.get r c = v'.amplitude r * (v'.amplitude c).conj) ∧
    ∀ (s : Settings) (b b' : Backend ℝ), b.Reachable → b'.Reachable →
      b.settings = { s with representation := .stateVector } →
      b'.settings = { s with representation := .densityMatrix } →
      ∀ (o o' : Occasion) (c : Circuit ℝ) (mode : RunMode ℝ) (r r' : ExecutionResult ℝ),
        (b.process o c mode).2 = .ok r → (b'.process o' c mode).2 = .ok r' →
        r.metadata.seed = r'.metadata.seed → mode.Corresponds r.data r'.data := by
  constructor
  · intro n o o' d v hd hv gates hg
    obtain ⟨hvn, -, -⟩ := Engine.StateVector.zero_eq_ok hv
    obtain ⟨-, hlt, -⟩ := Engine.DensityMatrix.zero_eq_ok hd
    have hfits : ∀ g ∈ gates, g.Fits v.numQubits := fun g hm => by
      rw [hvn]
      exact Engine.Gate.check_eq_ok.mp (hg g hm)
    obtain ⟨d', v', hd', hv', houter⟩ := (Engine.isOuter_zero hd hv).applyGates_of_fits hfits
    have hn : v'.numQubits = n := by
      have hsame := Engine.Program.applyGates_numQubits gates (.vector v)
      rw [hv'] at hsame
      exact hsame.trans hvn
    refine ⟨d', v', hd', hv', fun r hr c hc => houter.get_eq (by omega) ?_ ?_⟩
    · rwa [hn]
    · rwa [hn]
  · intro s b b' hb hb' hs hs' o o' c mode r r' hr hr' hseed
    rw [hb.sound.process_snd, map_eq_ok] at hr
    rw [hb'.sound.process_snd, map_eq_ok] at hr'
    obtain ⟨x, hx, rfl⟩ := hr
    obtain ⟨x', hx', rfl⟩ := hr'
    obtain ⟨k, hk, hx⟩ := bind_eq_ok.mp hx
    obtain ⟨k', hk', hx'⟩ := bind_eq_ok.mp hx'
    obtain ⟨-, hx⟩ := bind_unit_eq_ok.mp hx
    obtain ⟨-, hx'⟩ := bind_unit_eq_ok.mp hx'
    have hkk := (compiled_eq_ok.mp hk').2
    rw [(compiled_eq_ok.mp hk).2] at hkk
    obtain rfl := Except.ok.inj hkk
    rw [hs] at hx
    rw [hs'] at hx'
    exact Execution.execute_corresponds hx hx' hseed

omit [DecimalText ℝ] in
/-- A Hadamard gate on one qubit, and a circuit without gates, on both representations. -/
theorem density_matrix_refines_state_vector_one_qubit :
    let _ : DecimalText ℝ := DecimalText.whole
    (∃ d v d' v', Engine.DensityMatrix.zero 1 {} = .ok d ∧ Engine.StateVector.zero 1 {} = .ok v ∧
      Engine.Program.applyGates [.h 0] (.density d) = (.density d', none) ∧
      Engine.Program.applyGates [.h 0] (.vector v) = (.vector v', none) ∧
      d'.get 1 0 = v'.amplitude 1 * (v'.amplitude 0 : Cplx ℝ).conj) ∧
    ∃ r r', ((build "vector" {}).process ⟨0, 0, 0, ⟨"job"⟩, ⟨2024, 1, 1, 0, 0, 0, 0⟩⟩
        (Circuit.withSize "one" 1 0) .state).2 = .ok r ∧
      ((build "density" { representation := .densityMatrix }).process
        ⟨0, 0, 0, ⟨"job"⟩, ⟨2024, 1, 1, 0, 0, 0, 0⟩⟩ (Circuit.withSize "one" 1 0) .state).2 = .ok r' ∧
      RunMode.state.Corresponds r.data r'.data := by
  let _ : DecimalText ℝ := DecimalText.whole
  obtain ⟨hengine, hbackend⟩ := density_matrix_refines_state_vector
  have hgates : ∀ g ∈ [(Engine.Gate.h 0 : Engine.Gate ℝ)], g.check 1 = .ok () := by
    intro g hg
    rw [List.mem_singleton.mp hg]
    rfl
  obtain ⟨d', v', hd', hv', hget⟩ := hengine 1 {} {} _ _ rfl rfl _ hgates
  refine ⟨⟨_, _, d', v', rfl, rfl, hd', hv', hget 1 (by decide) 0 (by decide)⟩, ?_⟩
  have hvector := (Reachable.build (α := ℝ) "vector" {}).sound.process_snd
    ⟨0, 0, 0, ⟨"job"⟩, ⟨2024, 1, 1, 0, 0, 0, 0⟩⟩ (Circuit.withSize "one" 1 0) .state
  have hdensity := (Reachable.build (α := ℝ) "density"
    { representation := .densityMatrix }).sound.process_snd
    ⟨0, 0, 0, ⟨"job"⟩, ⟨2024, 1, 1, 0, 0, 0, 0⟩⟩ (Circuit.withSize "one" 1 0) .state
  exact ⟨_, _, hvector, hdensity, hbackend {} _ _ (.build _ _) (.build _ _) rfl rfl _ _ _ _ _ _
    hvector hdensity rfl⟩

end Backend

end KetSim

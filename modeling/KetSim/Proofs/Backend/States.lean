import KetSim.Proofs.Backend.Final
import KetSim.Proofs.Backend.Reachable
import KetSim.Proofs.Lowering.Supported

/-! # State requests

A backend on state vectors answers a state request for an executable circuit with
the ket of the circuit, the first qubit of the register layout in the most
significant bit of the index.
-/
namespace KetSim

/-! ## Orders of basis states -/

section Scatter

variable {β γ : Type} (f : γ → ℕ) (g : γ → β)

theorem getElem?_foldl_set_of_ne {xs : List γ} {j : ℕ} (h : ∀ x ∈ xs, f x ≠ j) (out : Array β) :
    (xs.foldl (fun out x => out.setIfInBounds (f x) (g x)) out)[j]? = out[j]? := by
  induction xs generalizing out with
  | nil => rfl
  | cons x rest ih =>
    obtain ⟨hx, hrest⟩ := List.forall_mem_cons.mp h
    rw [List.foldl_cons, ih hrest, Array.getElem?_setIfInBounds_ne hx]

theorem getElem?_foldl_set_of_mem {xs : List γ} (hn : (xs.map f).Nodup) {out : Array β} {x : γ}
    (hx : x ∈ xs) (hlt : f x < out.size) :
    (xs.foldl (fun out x => out.setIfInBounds (f x) (g x)) out)[f x]? = some (g x) := by
  induction xs generalizing out with
  | nil => cases hx
  | cons y rest ih =>
    rw [List.map_cons, List.nodup_cons] at hn
    rw [List.foldl_cons]
    rcases List.mem_cons.mp hx with rfl | hx
    · have hne : ∀ z ∈ rest, f z ≠ f x := fun z hz heq =>
        hn.1 (heq ▸ List.mem_map_of_mem hz)
      rw [getElem?_foldl_set_of_ne f g hne, Array.getElem?_setIfInBounds_self_of_lt hlt]
    · exact ih hn.2 hx (by simpa using hlt)

end Scatter

/-- Each entry is found at its place, if the places differ and lie inside the buffer. -/
theorem getElem?_scatter {α : Type} [Scalar α] {place : ℕ → ℕ} {entries : List (Cplx α)}
    (hn : ((List.range entries.length).map place).Nodup) {i : ℕ} (hi : i < entries.length)
    (hlt : place i < entries.length) : (scatter place entries)[place i]? = entries[i]? := by
  have hmap : entries.zipIdx.map (fun p => place p.2) = (List.range entries.length).map place := by
    rw [List.range_eq_range', ← List.zipIdx_map_snd 0 entries, List.map_map]
    rfl
  have hmem : (entries[i], i) ∈ entries.zipIdx := by
    rw [List.mem_zipIdx_iff_getElem?]
    exact List.getElem?_eq_getElem hi
  have hsize : place i < (Array.replicate entries.length (0 : Cplx α)).size := by
    simpa using hlt
  have hset := getElem?_foldl_set_of_mem (fun p => place p.2) Prod.fst (hmap ▸ hn) hmem hsize
  rw [List.getElem?_eq_getElem hi, scatter, Array.getElem?_toList]
  exact hset

theorem length_scatter {α : Type} [Scalar α] (place : ℕ → ℕ) (entries : List (Cplx α)) :
    (scatter place entries).length = entries.length := by
  have hsize (xs : List (Cplx α × ℕ)) (out : Array (Cplx α)) :
      (xs.foldl (fun out p => out.setIfInBounds (place p.2) p.1) out).size = out.size := by
    induction xs generalizing out with
    | nil => rfl
    | cons x rest ih => rw [List.foldl_cons, ih, Array.size_setIfInBounds]
  rw [scatter, Array.length_toList, hsize, Array.size_replicate]

theorem scatter_ilo {α : Type} [Scalar α] (n : ℕ) (entries : List (Cplx α)) :
    scatter (fun i => BasisOrder.ilo.place i n) entries = entries := by
  apply List.ext_getElem?
  intro i
  by_cases hi : i < entries.length
  · exact getElem?_scatter (by simpa [BasisOrder.place] using List.nodup_range) hi hi
  · rw [List.getElem?_eq_none (by rw [length_scatter]; omega), List.getElem?_eq_none (by omega)]

/-! ## Answers -/

namespace Backend

variable [DecimalText ℝ]

/-- A backend on state vectors answers a state request for an executable circuit that it has room
for with the ket of the circuit, with its phase, and the qubit at a position of the register layout
in the bit of that place. -/
theorem process_state_eq_ket {b : Backend ℝ} (hb : b.Reachable)
    (hr : b.settings.representation = .stateVector) {c : Circuit ℝ} (hc : c.Built)
    (he : c.Executable) (hn : c.numQubits ≤ b.settings.maxQubits) {start : Engine.StateVector ℝ}
    (ha : Engine.StateVector.zero c.numQubits b.settings.engineOptions = .ok start) (o : Occasion) :
    ∃ r xs ψ, (b.process o c .state).2 = .ok r ∧ r.stateVector? .ilo = some xs ∧
      c.ket? = some ψ ∧ xs.length = 2 ^ c.numQubits ∧
      ∀ x < 2 ^ c.numQubits, (xs.getD x 0).toComplex = ψ (c.bitsOf x) := by
  have hw := hc.wellFormed
  obtain ⟨k, hk⟩ := hw.exists_compile he
  obtain ⟨v, ψ, hstate, -, hψ, hv⟩ := Execution.finalState_vector hr hw hk ha
  have hsize : b.checkSize c = .ok () := if_neg (by omega)
  have hanswer : b.answer o.entropy c .state = .ok (.stateVector v.amplitudes.toList, none) := by
    simp only [answer, compiled_eq_ok.mpr ⟨hsize, hk⟩, checkShots, Execution.execute, hstate,
      Execution.observe, Execution.stateData, bind, Except.bind]
  have hprocess : (b.process o c .state).2 = .ok ⟨.stateVector v.amplitudes.toList,
      ⟨b.name, c.numQubits, some o.milliseconds, none⟩⟩ := by
    rw [hb.sound.process_snd, hanswer]
    rfl
  refine ⟨_, v.amplitudes.toList, ψ, hprocess, ?_, hψ, ?_, fun x hx => ?_⟩
  · simp only [ExecutionResult.stateVector?, scatter_ilo]
  · rw [Array.length_toList, hv.size]
  · rw [Engine.getD_toList, hv.entry x hx, hw.bitsOf_eq hx]
    rfl

omit [DecimalText ℝ] in
/-- A Bell circuit, measured at its end. -/
theorem process_state_eq_ket_bell :
    let _ : DecimalText ℝ := DecimalText.whole
    ∃ (c : Circuit ℝ) (r : ExecutionResult ℝ) (xs : List (Cplx ℝ)) (ψ : Ket QubitId),
      (Circuit.withSize "bell" 2 1).appendAll
        [.ofGate (.fixed .h) [⟨0⟩], .ofGate (.fixed .cx) [⟨0⟩, ⟨1⟩], .measure ⟨1⟩ ⟨0⟩] = .ok c ∧
      c.Built ∧ c.Executable ∧
      (new.process ⟨0, 0, 0, ⟨"job"⟩, ⟨2024, 1, 1, 0, 0, 0, 0⟩⟩ c .state).2 = .ok r ∧
      r.stateVector? .ilo = some xs ∧ c.ket? = some ψ ∧ xs.length = 4 ∧
      ∀ x < 4, (xs.getD x 0).toComplex = ψ (c.bitsOf x) := by
  let _ : DecimalText ℝ := DecimalText.whole
  have happend : (Circuit.withSize "bell" 2 1 : Circuit ℝ).appendAll
      [.ofGate (.fixed .h) [⟨0⟩], .ofGate (.fixed .cx) [⟨0⟩, ⟨1⟩], .measure ⟨1⟩ ⟨0⟩] = .ok _ := rfl
  have hbuilt := (Circuit.Built.withSize "bell" 2 1).appendAll happend
  have hexecutable : Circuit.Executable (α := ℝ) { Circuit.withSize "bell" 2 1 with
      instructions := [.ofGate (.fixed .h) [⟨0⟩], .ofGate (.fixed .cx) [⟨0⟩, ⟨1⟩],
        .measure ⟨1⟩ ⟨0⟩] } := by
    have hgates : ∀ g ∈ [(Gate.fixed .h : Gate ℝ), .fixed .cx],
        g.kind.isSupported = true ∧ g.params = [] := by
      simp only [List.forall_mem_cons]
      exact ⟨⟨rfl, rfl⟩, ⟨rfl, rfl⟩, by simp⟩
    refine ⟨fun g hg => (hgates g hg).1, fun g hg e he => ?_, ?_, ?_⟩
    · rw [(hgates g hg).2] at he
      cases he
    · simp [Instruction.ofGate, Instruction.measure]
    · simp [Instruction.ofGate, Instruction.measure, Instruction.isMeasure]
  obtain ⟨r, xs, ψ, hprocess, hvector, hket, hlength, hall⟩ :=
    process_state_eq_ket (.build "qulacs" {}) rfl hbuilt hexecutable (show 2 ≤ 24 by decide) rfl
      ⟨0, 0, 0, ⟨"job"⟩, ⟨2024, 1, 1, 0, 0, 0, 0⟩⟩
  exact ⟨_, r, xs, ψ, happend, hbuilt, hexecutable, hprocess, hvector, hket, hlength, hall⟩

omit [DecimalText ℝ] in
/-- Circuits from the builder with supported gates and values for all angles that get no answer: a
gate follows a measurement of its qubit, a qubit is reset, or the backend has no room. -/
theorem process_state_refuses :
    let _ : DecimalText ℝ := DecimalText.whole
    let o : Occasion := ⟨0, 0, 0, ⟨"job"⟩, ⟨2024, 1, 1, 0, 0, 0, 0⟩⟩
    let valued (c : Circuit ℝ) : Prop := ∀ g ∈ c.gates,
      g.kind.isSupported = true ∧ ∀ e ∈ g.params, e.halfTurns.isSome = true
    (∃ c : Circuit ℝ, (Circuit.withSize "reuse" 1 1).appendAll
        [.measure ⟨0⟩ ⟨0⟩, .ofGate (.fixed .h) [⟨0⟩]] = .ok c ∧ c.Built ∧ valued c ∧
      (new.process o c .state).2 = .error (.ofLowering (.measuredQubitReused "h" 1 ⟨0⟩))) ∧
    (∃ c : Circuit ℝ, (Circuit.withSize "reset" 1 0).appendAll [.reset ⟨0⟩] = .ok c ∧ c.Built ∧
      valued c ∧
      (new.process o c .state).2 = .error (.unsupportedGate "reset" 0)) ∧
    ((Circuit.withSize "wide" 2 0 : Circuit ℝ).Built ∧
      valued (Circuit.withSize "wide" 2 0) ∧
      ∃ reason, ((build "qulacs" { maxQubits := 1 } : Backend ℝ).process o
        (Circuit.withSize "wide" 2 0) .state).2 = .error (.incompatibleCircuit reason)) := by
  intro _ o valued
  have hnew : (new : Backend ℝ).Sound := (Reachable.build "qulacs" {}).sound
  have hsmall : (build "qulacs" { maxQubits := 1 } : Backend ℝ).Sound :=
    (Reachable.build "qulacs" { maxQubits := 1 }).sound
  have hreuse : (Circuit.withSize "reuse" 1 1 : Circuit ℝ).appendAll
      [.measure ⟨0⟩ ⟨0⟩, .ofGate (.fixed .h) [⟨0⟩]] = .ok _ := rfl
  have hreset : (Circuit.withSize "reset" 1 0 : Circuit ℝ).appendAll [.reset ⟨0⟩] = .ok _ := rfl
  refine ⟨⟨_, hreuse, (Circuit.Built.withSize "reuse" 1 1).appendAll hreuse, ?_, ?_⟩,
    ⟨_, hreset, (Circuit.Built.withSize "reset" 1 0).appendAll hreset, ?_, ?_⟩,
    .withSize "wide" 2 0, ?_, ?_⟩
  · intro g hg
    obtain rfl : g = .fixed .h := List.mem_singleton.mp hg
    exact ⟨rfl, fun e he => absurd he List.not_mem_nil⟩
  · rw [hnew.process_snd]
    rfl
  · exact fun g hg => absurd hg List.not_mem_nil
  · rw [hnew.process_snd]
    rfl
  · exact fun g hg => absurd hg List.not_mem_nil
  · rw [hsmall.process_snd]
    exact ⟨_, rfl⟩

end Backend

end KetSim

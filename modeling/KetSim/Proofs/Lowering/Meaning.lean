import KetSim.Proofs.Lowering.Program

/-! # Lowering preserves meaning

The program of a circuit does to a ket over engine indices what the circuit does
to the same ket over its qubits.
-/
namespace KetSim

/-! ## One gate -/

/-- The operator of a gate commutes with a renaming of its operands. -/
theorem StandardGate.operator?_map {ι κ : Type} [DecidableEq ι] [DecidableEq κ] {σ : ι → κ}
    (hσ : Function.Injective σ) {op : StandardGate} {angles : List ℝ} {names : List ι}
    {f' : Ket κ → Ket κ} (h : op.operator? angles (names.map σ) = some f') :
    ∃ f, op.operator? angles names = some f ∧ ∀ ψ, Ket.relabel σ (f ψ) = f' (Ket.relabel σ ψ) := by
  have hone (U : OneQubit) (q : ι) := Ket.relabel_onQubit hσ U q
  have hswap (a b : ι) := Ket.relabel_exchange hσ a b
  match names with
  | [] => cases op <;> cases h
  | [q] =>
    rw [List.map_singleton, operator?_singleton] at h
    obtain ⟨U, hU, rfl⟩ := Option.map_eq_some_iff.mp h
    refine ⟨fun ψ => Ket.onQubit U q ψ, ?_, hone U q⟩
    rw [operator?_singleton, hU]
    rfl
  | [a, b] =>
    cases op with
    | cx | cy | cz => cases h; exact ⟨_, rfl, Ket.relabel_controlled [a] (hone _ b)⟩
    | swap => cases h; exact ⟨_, rfl, hswap a b⟩
    | _ => cases h
  | [a, b, c] =>
    cases op with
    | ccx => cases h; exact ⟨_, rfl, Ket.relabel_controlled [a, b] (hone _ c)⟩
    | cswap => cases h; exact ⟨_, rfl, Ket.relabel_controlled [a] (hswap b c)⟩
    | _ => cases h
  | a :: b :: c :: d :: rest => cases op <;> cases h

/-! ## One instruction -/

theorem Angle.radians_iff {params : List (Angle ℝ)} {angles : List ℝ} :
    List.Forall₂ (fun e a => e.radians = some a) params angles ↔
      ∃ turns, List.Forall₂ (fun e t => e.halfTurns = some t) params turns ∧
        angles = turns.map Scalar.halfTurn := by
  induction params generalizing angles with
  | nil => simp
  | cons e rest ih =>
    constructor
    · intro h
      obtain ⟨a, as, ha, has, rfl⟩ := List.forall₂_cons_left_iff.mp h
      obtain ⟨t, ht, rfl⟩ := Option.map_eq_some_iff.mp ha
      obtain ⟨ts, hts, rfl⟩ := ih.mp has
      exact ⟨t :: ts, .cons ht hts, rfl⟩
    · rintro ⟨turns, hturns, rfl⟩
      cases hturns with
      | cons ht hts =>
        exact .cons (Option.map_eq_some_iff.mpr ⟨_, ht, rfl⟩) (ih.mpr ⟨_, hts, rfl⟩)

namespace Circuit.WellFormed

variable {c : Circuit ℝ}

theorem operator_of_lowers (h : c.WellFormed) {i : Instruction ℝ}
    (hi : i.Fits c.numQubits c.numClbits) {gates : List (Engine.Gate ℝ)}
    (hl : i.Lowers (.ofCircuit ⟨true⟩ c) gates) :
    ∃ f, i.operator? = some f ∧
      ∀ ψ, gates.foldl (fun φ g => g.action φ) (Ket.relabel c.place ψ) =
        Ket.relabel c.place (f ψ) := by
  cases hl with
  | @gate op params qubits clbits angles indices gates supported angle index image =>
    obtain rfl := (h.index_iff hi.lt).mp index
    obtain ⟨turns, hturns, rfl⟩ := Angle.radians_iff.mp angle
    have hn := hi.nodup.map h.place_injective
    have ha : turns.length = op.numParams := by
      rw [← hturns.length_eq]
      exact hi.length_params rfl
    have hq : (qubits.map c.place).length = op.numQubits := by
      rw [List.length_map]
      exact hi.length_qubits rfl
    obtain ⟨images, f', hr⟩ := StandardGate.exists_realizes supported ha hq hn
    obtain rfl : images = gates := Option.some.inj (hr.image.symm.trans image)
    obtain ⟨f, hf, hrelabel⟩ := StandardGate.operator?_map h.place_injective hr.operator
    refine ⟨f, ?_, fun ψ => (hr.action _).trans (hrelabel ψ).symm⟩
    simp [Instruction.operator?, GateKind.standard?, mapM_eq_some.mpr hturns, hf]
  | measure => exact ⟨id, rfl, fun ψ => rfl⟩
  | barrier => exact ⟨id, rfl, fun ψ => rfl⟩

/-- The images of instructions act as the instructions do. -/
theorem evolve?_of_forall₂ (h : c.WellFormed) {instructions : List (Instruction ℝ)}
    (hi : ∀ i ∈ instructions, i.Fits c.numQubits c.numClbits)
    {images : List (List (Engine.Gate ℝ))}
    (hl : List.Forall₂ (Instruction.Lowers (.ofCircuit ⟨true⟩ c)) instructions images)
    (ψ : Ket QubitId) :
    ∃ φ, evolve? instructions ψ = some φ ∧
      images.flatten.foldl (fun φ g => g.action φ) (Ket.relabel c.place ψ) =
        Ket.relabel c.place φ := by
  induction hl generalizing ψ with
  | nil => exact ⟨ψ, rfl, rfl⟩
  | cons head _ ih =>
    obtain ⟨hhead, hrest⟩ := List.forall_mem_cons.mp hi
    obtain ⟨f, hf, hact⟩ := h.operator_of_lowers hhead head
    obtain ⟨φ, hφ, hfold⟩ := ih hrest (f ψ)
    refine ⟨φ, ?_, ?_⟩
    · simp [evolve?, hf, hφ]
    · rw [List.flatten_cons, List.foldl_append, hact, hfold]

end Circuit.WellFormed

end KetSim

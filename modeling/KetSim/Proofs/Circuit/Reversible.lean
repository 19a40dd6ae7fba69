import Mathlib
import KetSim.Proofs.Circuit.Built
import KetSim.Proofs.Circuit.Measurement

/-! # Reversible circuits

A not gate and an exchange, with or without controls, move bits about and no more.
A circuit of such gates can be run on one bit for each qubit; on the kets it takes
the ket of an assignment of bits to the ket of the assignment that this run ends with.
-/
namespace KetSim

/-! ## Steps on bits -/

namespace Bits

variable {ι : Type} [DecidableEq ι]

def flip (q : ι) (v : ι → Bool) : ι → Bool := Function.update v q (!v q)

def exchange (a b : ι) (v : ι → Bool) : ι → Bool := v ∘ Equiv.swap a b

omit [DecidableEq ι] in
/-- A step that is taken where the bits of all controls are set. -/
def controlled (controls : List ι) (step : (ι → Bool) → ι → Bool) (v : ι → Bool) : ι → Bool :=
  if controls.all v then step v else v

variable {p q a b : ι}

theorem flip_of_ne (h : p ≠ q) (v : ι → Bool) : flip q v p = v p := Function.update_of_ne h _ _

theorem exchange_of_ne (ha : p ≠ a) (hb : p ≠ b) (v : ι → Bool) : exchange a b v p = v p := by
  rw [exchange, Function.comp_apply, Equiv.swap_apply_of_ne_of_ne ha hb]

omit [DecidableEq ι] in
theorem controlled_of_eq {controls : List ι} {step : (ι → Bool) → ι → Bool} {v : ι → Bool}
    (h : step v p = v p) : controlled controls step v p = v p := by
  unfold controlled
  split_ifs
  · exact h
  · rfl

end Bits

/-- What a gate does to one bit for each operand, controls first; other gates leave the bits
alone. -/
def StandardGate.move {ι : Type} [DecidableEq ι] :
    StandardGate → List ι → (ι → Bool) → ι → Bool
  | x, [q] => Bits.flip q
  | cx, [c, q] => Bits.controlled [c] (Bits.flip q)
  | swap, [a, b] => Bits.exchange a b
  | ccx, [c, d, q] => Bits.controlled [c, d] (Bits.flip q)
  | cswap, [c, a, b] => Bits.controlled [c] (Bits.exchange a b)
  | _, _ => id

/-- The gates that move bits. -/
def StandardGate.reversible : List StandardGate := [x, cx, swap, ccx, cswap]

def Gate.Reversible {α : Type} (g : Gate α) : Prop :=
  ∃ op ∈ StandardGate.reversible, g.kind = .standard op

def Instruction.move {α : Type} (i : Instruction α) : (QubitId → Bool) → QubitId → Bool :=
  match i.kind with
  | .gate ⟨.standard op, _⟩ => op.move i.qubits
  | _ => id

namespace Circuit

variable {α : Type}

/-- The bits of the qubits after all instructions, if all of them are clear at first. -/
def evaluate (c : Circuit α) : QubitId → Bool :=
  c.instructions.foldl (fun v i => i.move v) fun _ => false

/-- All gates move bits. -/
def Reversible (c : Circuit α) : Prop := ∀ g ∈ c.gates, g.Reversible

/-- The qubit that is last measured into a classical bit. -/
def lastInto? (c : Circuit α) (b : ClbitId) : Option QubitId :=
  c.instructions.reverse.findSome? fun i =>
    match i.target? with
    | some (q, b') => if b' = b then some q else none
    | none => none

end Circuit

/-! ## Operators that move amplitudes -/

namespace Ket

variable {ι : Type}

open Classical in
/-- The ket of one assignment. -/
noncomputable def basis (v : ι → Bool) : Ket ι := fun x => if x = v then 1 else 0

theorem zero_eq_basis : (zero : Ket ι) = basis fun _ => false := by
  classical
  funext x
  exact if_congr funext_iff.symm rfl rfl

theorem normSq_basis (v x : ι → Bool) [Decidable (x = v)] :
    Complex.normSq (basis v x) = if x = v then 1 else 0 := by
  rw [basis]
  split_ifs <;> simp

/-- An operator takes every amplitude from where a step leads, and the step undoes itself. -/
structure Moves (f : Ket ι → Ket ι) (step : (ι → Bool) → ι → Bool) : Prop where
  involutive : Function.Involutive step
  apply : ∀ ψ x, f ψ x = ψ (step x)

namespace Moves

variable {f : Ket ι → Ket ι} {step : (ι → Bool) → ι → Bool}

/-- A step that leaves the controls alone is still undone by itself. -/
theorem controlled (h : Moves f step) {controls : List ι}
    (hc : ∀ c ∈ controls, ∀ v, step v c = v c) :
    Moves (Ket.controlled controls f) (Bits.controlled controls step) := by
  have hall (v : ι → Bool) : controls.all (step v) = controls.all v := by
    rw [Bool.eq_iff_iff, List.all_eq_true, List.all_eq_true]
    exact forall₂_congr fun c hmem => by rw [hc c hmem]
  constructor
  · intro v
    by_cases hv : controls.all v = true
    · rw [Bits.controlled, Bits.controlled, if_pos hv, hall, if_pos hv, h.involutive v]
    · rw [Bits.controlled, Bits.controlled, if_neg hv, if_neg hv]
  · intro ψ x
    simp only [Ket.controlled, Bits.controlled, h.apply]
    split_ifs <;> rfl

variable [DecidableEq ι]

theorem flip (q : ι) : Moves (onQubit OneQubit.pauliX q) (Bits.flip q) := by
  constructor
  · intro v
    simp [Bits.flip]
  · intro ψ x
    cases hx : x q <;> simp [onQubit, OneQubit.pauliX, Bits.flip, hx]

theorem exchange (a b : ι) : Moves (exchange a b) (Bits.exchange a b) := by
  refine ⟨fun v => ?_, fun ψ x => rfl⟩
  funext q
  simp [Bits.exchange]

end Moves

end Ket

namespace StandardGate

variable {ι : Type} [DecidableEq ι]

/-- The operator of a reversible gate moves the amplitudes as the gate moves bits. -/
theorem exists_moves {op : StandardGate} (hop : op ∈ reversible) {names : List ι}
    (hl : names.length = op.numQubits) (hn : names.Nodup) :
    ∃ f, op.operator? [] names = some f ∧ Ket.Moves f (op.move names) := by
  simp only [reversible, List.mem_cons, List.not_mem_nil, or_false] at hop
  rcases hop with rfl | rfl | rfl | rfl | rfl
  · obtain ⟨q, rfl⟩ := List.length_eq_one_iff.mp hl
    exact ⟨_, rfl, .flip q⟩
  · obtain ⟨c, q, rfl⟩ := List.length_eq_two.mp hl
    have hcq : c ≠ q := by simpa using hn
    exact ⟨_, rfl,
      .controlled (.flip q) fun p hp v => List.mem_singleton.mp hp ▸ Bits.flip_of_ne hcq v⟩
  · obtain ⟨a, b, rfl⟩ := List.length_eq_two.mp hl
    exact ⟨_, rfl, .exchange a b⟩
  · obtain ⟨c, d, q, rfl⟩ := List.length_eq_three.mp hl
    obtain ⟨hcq, hdq⟩ : c ≠ q ∧ d ≠ q := by simp_all
    refine ⟨_, rfl, .controlled (.flip q) fun p hp v => ?_⟩
    rcases List.mem_pair.mp hp with rfl | rfl
    · exact Bits.flip_of_ne hcq v
    · exact Bits.flip_of_ne hdq v
  · obtain ⟨c, a, b, rfl⟩ := List.length_eq_three.mp hl
    obtain ⟨hca, hcb⟩ : c ≠ a ∧ c ≠ b := by simp_all
    exact ⟨_, rfl, .controlled (.exchange a b) fun p hp v =>
      List.mem_singleton.mp hp ▸ Bits.exchange_of_ne hca hcb v⟩

/-- The bits of other names stay. -/
theorem move_of_notMem (op : StandardGate) {names : List ι} {p : ι} (hp : p ∉ names)
    (v : ι → Bool) : op.move names v p = v p := by
  unfold move
  split
  · exact Bits.flip_of_ne (by simpa using hp) v
  · exact Bits.controlled_of_eq (Bits.flip_of_ne (by simp_all) v)
  · exact Bits.exchange_of_ne (by simp_all) (by simp_all) v
  · exact Bits.controlled_of_eq (Bits.flip_of_ne (by simp_all) v)
  · exact Bits.controlled_of_eq (Bits.exchange_of_ne (by simp_all) (by simp_all) v)
  · rfl

end StandardGate

/-! ## Runs -/

/-- The operator of a reversible gate, of a measurement or of a barrier moves the amplitudes as the
instruction moves bits. -/
theorem Instruction.moves {i : Instruction ℝ} {n m : ℕ} (hi : i.Fits n m)
    (hr : ∀ g, i.kind = .gate g → g.Reversible)
    {f : Ket QubitId → Ket QubitId} (hf : i.operator? = some f) : Ket.Moves f i.move := by
  obtain ⟨kind, qubits, clbits⟩ := i
  cases kind with
  | gate g =>
    obtain ⟨kind, params⟩ := g
    obtain ⟨op, hop, rfl⟩ := hr _ rfl
    have hparams : params = [] := by
      have hl := hi.length_params rfl
      simp only [StandardGate.reversible, List.mem_cons, List.not_mem_nil, or_false] at hop
      rcases hop with rfl | rfl | rfl | rfl | rfl <;> exact List.length_eq_zero_iff.mp hl
    obtain rfl := hparams
    obtain ⟨f', hf', hmoves⟩ := StandardGate.exists_moves hop (hi.length_qubits rfl) hi.nodup
    have hff : f' = f := Option.some.inj (hf'.symm.trans hf)
    exact hff ▸ hmoves
  | measure | barrier =>
    obtain rfl := Option.some.inj hf
    exact ⟨fun _ => rfl, fun _ _ => rfl⟩
  | reset => cases hf

theorem Instruction.move_of_notMem {α : Type} (i : Instruction α) {q : QubitId}
    (hq : q ∉ i.qubits) (v : QubitId → Bool) : i.move v q = v q := by
  obtain ⟨kind, qubits, clbits⟩ := i
  cases kind with
  | gate g =>
    obtain ⟨kind, params⟩ := g
    cases kind with
    | standard op => exact op.move_of_notMem hq v
    | custom op => rfl
  | measure | reset | barrier => rfl

namespace Circuit

/-- A reversible run takes every amplitude from where the steps undone in reverse order lead. -/
theorem evolve?_moves {instructions : List (Instruction ℝ)} {n m : ℕ}
    (hi : ∀ i ∈ instructions, i.Fits n m)
    (hr : ∀ i ∈ instructions, ∀ g, i.kind = .gate g → g.Reversible)
    {ψ φ : Ket QubitId} (hφ : evolve? instructions ψ = some φ) :
    ∃ undo : (QubitId → Bool) → QubitId → Bool, (∀ x, φ x = ψ (undo x)) ∧
      ∀ v x, undo x = v ↔ x = instructions.foldl (fun v i => i.move v) v := by
  induction instructions generalizing ψ with
  | nil => exact ⟨id, fun x => congrFun (Option.some.inj hφ).symm x, fun v x => Iff.rfl⟩
  | cons i rest ih =>
    obtain ⟨hfits, hrest⟩ := List.forall_mem_cons.mp hi
    obtain ⟨hgate, hgates⟩ := List.forall_mem_cons.mp hr
    simp only [evolve?, Option.bind_eq_bind, Option.bind_eq_some_iff] at hφ
    obtain ⟨f, hf, hφ⟩ := hφ
    have hmoves := Instruction.moves hfits hgate hf
    obtain ⟨undo, hundo, hiff⟩ := ih hrest hgates hφ
    refine ⟨fun x => i.move (undo x), fun x => (hundo x).trans (hmoves.apply ψ _), fun v x => ?_⟩
    rw [hmoves.involutive.eq_iff, hiff, List.foldl_cons]

theorem evolve?_basis {instructions : List (Instruction ℝ)} {n m : ℕ}
    (hi : ∀ i ∈ instructions, i.Fits n m)
    (hr : ∀ i ∈ instructions, ∀ g, i.kind = .gate g → g.Reversible)
    {v : QubitId → Bool} {φ : Ket QubitId} (hφ : evolve? instructions (Ket.basis v) = some φ) :
    φ = Ket.basis (instructions.foldl (fun v i => i.move v) v) := by
  classical
  obtain ⟨undo, hundo, hiff⟩ := evolve?_moves hi hr hφ
  funext x
  exact (hundo x).trans (if_congr (hiff v x) rfl rfl)

/-- A reversible circuit leaves the ket of the assignment that its run on bits ends with. -/
theorem WellFormed.evolve?_eq_basis {c : Circuit ℝ} (h : c.WellFormed) (hr : c.Reversible)
    {φ : Ket QubitId} (hφ : evolve? c.instructions Ket.zero = some φ) :
    φ = Ket.basis c.evaluate := by
  rw [Ket.zero_eq_basis] at hφ
  exact evolve?_basis h.instructions (fun i hi g hg => hr g (mem_gates hi hg)) hφ

variable {α : Type}

/-- Only declared qubits get set. -/
theorem WellFormed.evaluate_of_le {c : Circuit α} (h : c.WellFormed) {q : QubitId}
    (hq : c.numQubits ≤ q.index) : c.evaluate q = false := by
  have hfold (instructions : List (Instruction α))
      (hi : ∀ i ∈ instructions, i.Fits c.numQubits c.numClbits) (v : QubitId → Bool) :
      instructions.foldl (fun v i => i.move v) v q = v q := by
    induction instructions generalizing v with
    | nil => rfl
    | cons i rest ih =>
      obtain ⟨hfits, hrest⟩ := List.forall_mem_cons.mp hi
      rw [List.foldl_cons, ih hrest,
        i.move_of_notMem fun hmem => absurd (hfits.lt q hmem) (not_lt.mpr hq)]
  exact hfold c.instructions h.instructions _

theorem set_map_range {β : Type} (f : ℕ → β) (n k : ℕ) (y : β) :
    ((List.range n).map f).set k y = (List.range n).map (Function.update f k y) := by
  apply List.ext_getElem
  · simp
  · intro j hj hj'
    rw [List.getElem_set]
    by_cases hk : k = j
    · simp [hk]
    · simp [hk, Ne.symm hk]

/-- A reading of all instructions holds, for every classical bit, the qubit last measured into
it. -/
theorem sources_eq (c : Circuit α) :
    (c.instructions.foldl Reading.next (.start c)).sources =
      (List.range c.numClbits).map fun k => c.lastInto? ⟨k⟩ := by
  unfold lastInto?
  induction c.instructions using List.reverseRecOn with
  | nil => simp [Reading.start]
  | append_singleton rest i ih =>
    rw [List.foldl_append, List.foldl_cons, List.foldl_nil, List.reverse_append]
    cases ht : i.target? with
    | none => simp [Reading.next_eq_self ht, ih, ht]
    | some target =>
      obtain ⟨q, b⟩ := target
      rw [Reading.next_eq_of_target ht, ih, set_map_range]
      apply List.map_congr_left
      intro k _
      by_cases hk : k = b.index
      · subst hk
        simp [ht]
      · have hb : b ≠ ⟨k⟩ := fun heq => hk (heq ▸ rfl)
        simp [ht, hb, hk]

end Circuit

end KetSim

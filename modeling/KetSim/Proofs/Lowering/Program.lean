import Mathlib
import KetSim.Lowering.Compiled
import KetSim.Proofs.Engine.Action
import KetSim.Proofs.Lowering.Image
import KetSim.Proofs.Lowering.Layout

/-! # The program of a circuit

A circuit has a program if every instruction has an image and every engine gate
fits the register; the program then lists the images in order. For circuits from
the builder the gates always fit.
-/
namespace KetSim

variable {α : Type} [Scalar α]

/-! ## Images of instructions -/

/-- The engine gates that an instruction is lowered to. -/
inductive Instruction.Lowers (layout : QubitLayout) : Instruction α → List (Engine.Gate α) → Prop
  | gate {op : StandardGate} {params : List (Angle α)} {qubits : List QubitId}
      {clbits : List ClbitId} {angles : List α} {indices : List ℕ}
      {gates : List (Engine.Gate α)} (supported : op.isSupported = true)
      (angle : List.Forall₂ (fun e a => e.radians = some a) params angles)
      (index : List.Forall₂ (fun q i => layout.index q = .ok i) qubits indices)
      (image : op.image indices angles = some gates) :
      Lowers layout ⟨.gate ⟨.standard op, params⟩, qubits, clbits⟩ gates
  | measure {qubits : List QubitId} {clbits : List ClbitId} :
      Lowers layout ⟨.measure, qubits, clbits⟩ []
  | barrier {qubits : List QubitId} {clbits : List ClbitId} :
      Lowers layout ⟨.barrier, qubits, clbits⟩ []

variable [DecimalText α]

theorem Lowering.radians_eq_ok {gate : String} {position : ℕ} {e : Angle α} {a : α} :
    radians gate position e = .ok a ↔ e.radians = some a := by
  unfold radians
  cases e.radians <;> simp

theorem Lowering.gate_eq_ok {layout : QubitLayout} {position : ℕ} {g : Gate α}
    {qubits : List QubitId} {clbits : List ClbitId} {gates : List (Engine.Gate α)} :
    gate layout position g qubits = .ok gates ↔
      Instruction.Lowers layout ⟨.gate g, qubits, clbits⟩ gates := by
  obtain ⟨kind, params⟩ := g
  cases kind with
  | custom op =>
    constructor
    · intro h
      cases h
    · rintro ⟨⟩
  | standard op =>
    cases hs : op.isSupported with
    | false =>
      constructor
      · intro h
        simp [gate, hs] at h
      · rintro ⟨⟩
        simp_all
    | true =>
      simp only [gate, hs, Bool.not_true, Bool.false_eq_true, ↓reduceIte, bind_eq_ok, mapM_eq_ok,
        radians_eq_ok]
      constructor
      · rintro ⟨angles, ha, indices, hi, h⟩
        cases himage : op.image indices angles with
        | none => simp [himage] at h
        | some images =>
          simp only [himage, Except.ok.injEq] at h
          exact .gate hs ha hi (h ▸ himage)
      · intro h
        cases h with
        | gate _ ha hi himage => exact ⟨_, ha, _, hi, by rw [himage]⟩

theorem Lowering.instruction_eq_ok {layout : QubitLayout} {position : ℕ} {i : Instruction α}
    {gates : List (Engine.Gate α)} :
    instruction layout position i = .ok gates ↔ i.Lowers layout gates := by
  obtain ⟨kind, qubits, clbits⟩ := i
  cases kind with
  | gate g => exact gate_eq_ok
  | measure =>
    constructor
    · intro h
      cases h
      exact .measure
    · rintro ⟨⟩
      rfl
  | reset =>
    constructor
    · intro h
      cases h
    · rintro ⟨⟩
  | barrier =>
    constructor
    · intro h
      cases h
      exact .barrier
    · rintro ⟨⟩
      rfl

/-! ## Programs -/

omit [Scalar α] [DecimalText α] in
theorem Lowering.addAll_eq_ok {gates : List (Engine.Gate α)} {p p' : Engine.Program α} :
    addAll gates p = .ok p' ↔
      (∀ g ∈ gates, g.Fits p.numQubits) ∧ p' = { p with gates := p.gates ++ gates } := by
  induction gates generalizing p with
  | nil => simp [addAll, pure, Except.pure, eq_comm]
  | cons g rest ih =>
    rw [addAll, List.foldlM_cons, bind_eq_ok]
    simp only [mapError_eq_ok, Engine.Program.add, bind_unit_eq_ok, Engine.Gate.check_eq_ok]
    constructor
    · rintro ⟨q, ⟨hg, hq⟩, hrest⟩
      obtain rfl := Except.ok.inj hq
      obtain ⟨hfits, rfl⟩ := ih.mp hrest
      exact ⟨List.forall_mem_cons.mpr ⟨hg, hfits⟩, by simp⟩
    · rintro ⟨hfits, rfl⟩
      obtain ⟨hg, hrest⟩ := List.forall_mem_cons.mp hfits
      exact ⟨_, ⟨hg, rfl⟩, ih.mpr ⟨hrest, by simp⟩⟩

theorem Lowering.appendFrom_eq_ok {layout : QubitLayout} {position : ℕ}
    {instructions : List (Instruction α)} {p p' : Engine.Program α} :
    appendFrom layout position instructions p = .ok p' ↔
      ∃ images, List.Forall₂ (Instruction.Lowers layout) instructions images ∧
        (∀ g ∈ images.flatten, g.Fits p.numQubits) ∧
        p' = { p with gates := p.gates ++ images.flatten } := by
  induction instructions generalizing position p with
  | nil => simp [appendFrom, eq_comm]
  | cons i rest ih =>
    simp only [appendFrom, bind_eq_ok, instruction_eq_ok, addAll_eq_ok, ih]
    constructor
    · rintro ⟨gates, hi, q, ⟨hfits, rfl⟩, images, himages, hrest, rfl⟩
      refine ⟨gates :: images, .cons hi himages, ?_, by simp⟩
      rw [List.flatten_cons]
      exact fun g hg => (List.mem_append.mp hg).elim (hfits g) (hrest g)
    · rintro ⟨_, ⟨⟩ | ⟨hi, himages⟩, hfits, rfl⟩
      rename_i gates images
      rw [List.flatten_cons] at hfits
      exact ⟨gates, hi, _, ⟨fun g hg => hfits g (List.mem_append_left _ hg), rfl⟩, images, himages,
        fun g hg => hfits g (List.mem_append_right _ hg), by simp⟩

/-- A circuit has a program if its instructions have images that fit. -/
theorem Circuit.lower_eq_ok {numbering : Numbering} {c : Circuit α} {p : Engine.Program α} :
    c.lower numbering = .ok p ↔
      ∃ images, List.Forall₂ (Instruction.Lowers (.ofCircuit numbering c)) c.instructions images ∧
        (∀ g ∈ images.flatten, g.Fits c.numQubits) ∧ p = ⟨c.numQubits, images.flatten⟩ := by
  simp only [lower, Lowering.appendFrom_eq_ok, Engine.Program.empty, List.nil_append]

theorem Circuit.compile_eq_ok {c : Circuit α}
    {k : Compiled α} : c.compile = .ok k ↔
      c.lower ⟨true⟩ = .ok k.program ∧ k.layout = .ofCircuit ⟨true⟩ c ∧
        Readout.ofCircuit (.ofCircuit ⟨true⟩ c) c = .ok k.readout := by
  simp only [compile, bind_eq_ok]
  constructor
  · rintro ⟨program, hp, readout, hr, hk⟩
    obtain rfl := Except.ok.inj hk
    exact ⟨hp, rfl, hr⟩
  · rintro ⟨hp, hl, hr⟩
    obtain ⟨program, layout, readout⟩ := k
    obtain rfl := hl
    exact ⟨program, hp, readout, hr, rfl⟩

theorem Circuit.numQubits_of_compile {c : Circuit α} {k : Compiled α} (h : c.compile = .ok k) :
    k.program.numQubits = c.numQubits := by
  obtain ⟨images, -, -, hp⟩ := lower_eq_ok.mp (compile_eq_ok.mp h).1
  rw [hp]

/-- A compiled program fits its own register. -/
theorem Circuit.fits_of_compile {c : Circuit α} {k : Compiled α} (h : c.compile = .ok k) :
    ∀ g ∈ k.program.gates, g.Fits k.program.numQubits := by
  obtain ⟨images, -, hfits, hp⟩ := lower_eq_ok.mp (compile_eq_ok.mp h).1
  rw [hp]
  exact hfits

/-! ## Well-formed circuits -/

namespace Circuit.WellFormed

variable {c : Circuit α}

omit [Scalar α] [DecimalText α] in
theorem index_iff (h : c.WellFormed) {qubits : List QubitId}
    (hq : ∀ q ∈ qubits, q.index < c.numQubits) {indices : List ℕ} :
    List.Forall₂ (fun q i => (QubitLayout.ofCircuit ⟨true⟩ c).index q = .ok i) qubits indices ↔
      indices = qubits.map c.place := by
  induction qubits generalizing indices with
  | nil => simp
  | cons q rest ih =>
    obtain ⟨hq, hrest⟩ := List.forall_mem_cons.mp hq
    rw [List.forall₂_cons_left_iff, List.map_cons]
    constructor
    · rintro ⟨i, is, hi, his, rfl⟩
      rw [h.index_eq hq, Except.ok.injEq] at hi
      rw [hi, (ih hrest).mp his]
    · rintro rfl
      exact ⟨_, _, h.index_eq hq, (ih hrest).mpr rfl, rfl⟩

omit [DecimalText α] in
theorem fits_of_lowers (h : c.WellFormed) {i : Instruction α}
    (hi : i.Fits c.numQubits c.numClbits) {gates : List (Engine.Gate α)}
    (hl : i.Lowers (.ofCircuit ⟨true⟩ c) gates) : ∀ g ∈ gates, g.Fits c.numQubits := by
  cases hl with
  | gate supported angle index image =>
    obtain rfl := (h.index_iff hi.lt).mp index
    have hn := hi.nodup.map h.place_injective
    intro g hg
    obtain ⟨hnodup, hsub⟩ := StandardGate.qubits_of_image image hn g hg
    refine ⟨hnodup, ?_⟩
    intro q hq
    obtain ⟨p, hp, rfl⟩ := List.mem_map.mp (hsub hq)
    exact h.place_lt (hi.lt p hp)
  | measure => simp
  | barrier => simp

omit [DecimalText α] in
theorem fits_of_forall₂ (h : c.WellFormed) {instructions : List (Instruction α)}
    (hi : ∀ i ∈ instructions, i.Fits c.numQubits c.numClbits)
    {images : List (List (Engine.Gate α))}
    (hl : List.Forall₂ (Instruction.Lowers (.ofCircuit ⟨true⟩ c)) instructions images) :
    ∀ g ∈ images.flatten, g.Fits c.numQubits := by
  induction hl with
  | nil => simp
  | cons head _ ih =>
    obtain ⟨hhead, hrest⟩ := List.forall_mem_cons.mp hi
    rw [List.flatten_cons]
    exact fun g hg => (List.mem_append.mp hg).elim (h.fits_of_lowers hhead head g) (ih hrest g)

end Circuit.WellFormed

end KetSim

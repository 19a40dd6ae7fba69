import Mathlib
import KetSim.Decimal.Float
import KetSim.Proofs.Circuit.Reversible
import KetSim.Proofs.Lowering.Supported

/-! # What compiling a circuit answers

A circuit from the builder compiles to the images of its gates in order, together
with the engine indices that its classical bits are read from. Otherwise the
answer is the first instruction without an image or with an angle without a value,
and only if there is none, the first gate on a qubit that was measured before it.
-/
namespace KetSim

variable {α : Type}

/-! ## The first failure -/

theorem pairwise_or_first {β : Type} (R : β → β → Prop) (xs : List β) :
    xs.Pairwise R ∨ ∃ before x after, xs = before ++ x :: after ∧ before.Pairwise R ∧
      ∃ y ∈ before, ¬ R y x := by
  induction xs using List.reverseRecOn with
  | nil => exact .inl .nil
  | append_singleton rest x ih =>
    rcases ih with hrest | ⟨before, y, after, rfl, hbefore, hy⟩
    · by_cases hx : ∀ y ∈ rest, R y x
      · exact .inl
          (List.pairwise_append.mpr ⟨hrest, List.pairwise_singleton R x, by simpa using hx⟩)
      · push Not at hx
        exact .inr ⟨rest, x, [], rfl, hrest, hx⟩
    · exact .inr ⟨before, y, after ++ [x], by simp, hbefore, hy⟩

/-! ## The table of images -/

variable [Scalar α]

/-- The engine gates that stand for a gate: one each, on the indices of its operands, and three for
the controlled `Y`. Angles are given in half turns, and rotations change their sense. -/
inductive StandardGate.Becomes : StandardGate → List ℕ → List α → List (Engine.Gate α) → Prop
  | x (q : ℕ) : Becomes .x [q] [] [.x q]
  | y (q : ℕ) : Becomes .y [q] [] [.y q]
  | z (q : ℕ) : Becomes .z [q] [] [.z q]
  | h (q : ℕ) : Becomes .h [q] [] [.h q]
  | s (q : ℕ) : Becomes .s [q] [] [.s q]
  | sdg (q : ℕ) : Becomes .sdg [q] [] [.sdag q]
  | t (q : ℕ) : Becomes .t [q] [] [.t q]
  | tdg (q : ℕ) : Becomes .tdg [q] [] [.tdag q]
  | sx (q : ℕ) : Becomes .sx [q] [] [.sqrtX q]
  | sxdg (q : ℕ) : Becomes .sxdg [q] [] [.sqrtXdag q]
  | rx (q : ℕ) (a : α) : Becomes .rx [q] [a] [.rx q (-(a * Scalar.pi))]
  | ry (q : ℕ) (a : α) : Becomes .ry [q] [a] [.ry q (-(a * Scalar.pi))]
  | rz (q : ℕ) (a : α) : Becomes .rz [q] [a] [.rz q (-(a * Scalar.pi))]
  | u1 (q : ℕ) (a : α) : Becomes .u1 [q] [a] [.u1 q (a * Scalar.pi)]
  | u2 (q : ℕ) (a b : α) : Becomes .u2 [q] [a, b] [.u2 q (a * Scalar.pi) (b * Scalar.pi)]
  | u3 (q : ℕ) (a b c : α) :
      Becomes .u3 [q] [a, b, c] [.u3 q (a * Scalar.pi) (b * Scalar.pi) (c * Scalar.pi)]
  | cx (c q : ℕ) : Becomes .cx [c, q] [] [.cnot c q]
  | cy (c q : ℕ) : Becomes .cy [c, q] [] [.sdag q, .cnot c q, .s q]
  | cz (c q : ℕ) : Becomes .cz [c, q] [] [.cz c q]
  | swap (p q : ℕ) : Becomes .swap [p, q] [] [.swap p q]
  | ccx (c d q : ℕ) : Becomes .ccx [c, d, q] [] [.toffoli c d q]
  | cswap (c p q : ℕ) : Becomes .cswap [c, p, q] [] [.fredkin c p q]

theorem StandardGate.Becomes.image {op : StandardGate} {indices : List ℕ} {turns : List α}
    {gates : List (Engine.Gate α)} (h : op.Becomes indices turns gates) :
    op.isSupported = true ∧ op.image indices (turns.map Scalar.halfTurn) = some gates := by
  cases h <;> exact ⟨by decide, rfl⟩

theorem StandardGate.exists_becomes {op : StandardGate} (hs : op.isSupported = true)
    {indices : List ℕ} (hq : indices.length = op.numQubits) {turns : List α}
    (ha : turns.length = op.numParams) : ∃ gates, op.Becomes indices turns gates := by
  cases op with
  | x | y | z | h | s | sdg | t | tdg | sx | sxdg =>
    obtain ⟨q, rfl⟩ := List.length_eq_one_iff.mp hq
    obtain rfl := List.length_eq_zero_iff.mp ha
    exact ⟨_, by constructor⟩
  | rx | ry | rz | u1 =>
    obtain ⟨q, rfl⟩ := List.length_eq_one_iff.mp hq
    obtain ⟨a, rfl⟩ := List.length_eq_one_iff.mp ha
    exact ⟨_, by constructor⟩
  | u2 =>
    obtain ⟨q, rfl⟩ := List.length_eq_one_iff.mp hq
    obtain ⟨a, b, rfl⟩ := List.length_eq_two.mp ha
    exact ⟨_, .u2 q a b⟩
  | u3 =>
    obtain ⟨q, rfl⟩ := List.length_eq_one_iff.mp hq
    obtain ⟨a, b, c, rfl⟩ := List.length_eq_three.mp ha
    exact ⟨_, .u3 q a b c⟩
  | cx | cy | cz | swap =>
    obtain ⟨p, q, rfl⟩ := List.length_eq_two.mp hq
    obtain rfl := List.length_eq_zero_iff.mp ha
    exact ⟨_, by constructor⟩
  | ccx | cswap =>
    obtain ⟨p, q, r, rfl⟩ := List.length_eq_three.mp hq
    obtain rfl := List.length_eq_zero_iff.mp ha
    exact ⟨_, by constructor⟩
  | ch | crz | cp | iswap | zzPhase => exact absurd hs (by decide)

/-- The engine gates that stand for an instruction on placed qubits; measurements and barriers
leave none. -/
inductive Instruction.Becomes (place : QubitId → ℕ) : Instruction α → List (Engine.Gate α) → Prop
  | gate {op : StandardGate} {params : List (Angle α)} {qubits : List QubitId}
      {clbits : List ClbitId} {turns : List α} {gates : List (Engine.Gate α)}
      (valued : List.Forall₂ (fun e a => e.halfTurns = some a) params turns)
      (image : op.Becomes (qubits.map place) turns gates) :
      Becomes place ⟨.gate ⟨.standard op, params⟩, qubits, clbits⟩ gates
  | measure {qubits : List QubitId} {clbits : List ClbitId} :
      Becomes place ⟨.measure, qubits, clbits⟩ []
  | barrier {qubits : List QubitId} {clbits : List ClbitId} :
      Becomes place ⟨.barrier, qubits, clbits⟩ []

theorem Angle.radians_eq_some {e : Angle α} {x : α} :
    e.radians = some x ↔ ∃ a, e.halfTurns = some a ∧ Scalar.halfTurn a = x :=
  Option.map_eq_some_iff

theorem Angle.forall₂_radians_iff {params : List (Angle α)} {angles : List α} :
    List.Forall₂ (fun e a => e.radians = some a) params angles ↔
      ∃ turns, List.Forall₂ (fun e a => e.halfTurns = some a) params turns ∧
        angles = turns.map Scalar.halfTurn := by
  constructor
  · intro h
    induction h with
    | nil => exact ⟨[], .nil, rfl⟩
    | cons head _ ih =>
      obtain ⟨a, ha, rfl⟩ := radians_eq_some.mp head
      obtain ⟨turns, hturns, rfl⟩ := ih
      exact ⟨a :: turns, .cons ha hturns, rfl⟩
  · rintro ⟨turns, hturns, rfl⟩
    rw [List.forall₂_map_right_iff]
    exact hturns.imp fun e a ha => radians_eq_some.mpr ⟨a, ha, rfl⟩

/-- On a checked instruction lowering follows the table. -/
theorem Circuit.WellFormed.lowers_iff {c : Circuit α} (h : c.WellFormed) {i : Instruction α}
    (hi : i.Fits c.numQubits c.numClbits) {gates : List (Engine.Gate α)} :
    i.Lowers (.ofCircuit ⟨true⟩ c) gates ↔ i.Becomes c.place gates := by
  constructor
  · intro hl
    cases hl with
    | @gate op params qubits clbits angles indices gates supported angle index image =>
      obtain ⟨turns, hturns, rfl⟩ := Angle.forall₂_radians_iff.mp angle
      obtain rfl := (h.index_iff hi.lt).mp index
      have hindices : (qubits.map c.place).length = op.numQubits := by
        rw [List.length_map]
        exact hi.length_qubits rfl
      have hcount : turns.length = op.numParams := hturns.length_eq ▸ hi.length_params rfl
      obtain ⟨gates', hbecomes⟩ := StandardGate.exists_becomes supported hindices hcount
      obtain rfl := Option.some.inj (image.symm.trans hbecomes.image.2)
      exact .gate hturns hbecomes
    | measure => exact .measure
    | barrier => exact .barrier
  · intro hb
    cases hb with
    | gate valued image =>
      exact .gate image.image.1 (Angle.forall₂_radians_iff.mpr ⟨_, valued, rfl⟩)
        ((h.index_iff hi.lt).mpr rfl) image.image.2
    | measure => exact .measure
    | barrier => exact .barrier

theorem Circuit.WellFormed.forall₂_lowers_iff {c : Circuit α} (h : c.WellFormed)
    {instructions : List (Instruction α)} (hi : ∀ i ∈ instructions, i.Fits c.numQubits c.numClbits)
    {images : List (List (Engine.Gate α))} :
    List.Forall₂ (Instruction.Lowers (.ofCircuit ⟨true⟩ c)) instructions images ↔
      List.Forall₂ (Instruction.Becomes c.place) instructions images := by
  induction instructions generalizing images with
  | nil => simp
  | cons i rest ih =>
    obtain ⟨hi, hrest⟩ := List.forall_mem_cons.mp hi
    simp only [List.forall₂_cons_left_iff, h.lowers_iff hi, ih hrest]

/-! ## Answers -/

namespace Instruction

/-- A reset, or a gate that the engine has no image of. -/
def Unsupported (i : Instruction α) : Prop :=
  match i.kind with
  | .gate g => g.kind.isSupported = false
  | .reset => True
  | .measure | .barrier => False

/-- One of the instructions measures the qubit. -/
def Measured (instructions : List (Instruction α)) (q : QubitId) : Prop :=
  ∃ m ∈ instructions, m.isMeasure = true ∧ q ∈ m.qubits

end Instruction

namespace Circuit

variable [DecimalText α]

/-- What compiling a circuit is to answer. Positions count all instructions. -/
inductive Compiles (c : Circuit α) : Except LoweringError (Compiled α) → Prop
  /-- The first instruction that does not run is unsupported. -/
  | unsupported {before after : List (Instruction α)} {i : Instruction α}
      (split : c.instructions = before ++ i :: after) (runs : ∀ j ∈ before, j.Runs)
      (fault : i.Unsupported) : Compiles c (.error (.unsupportedGate i.name before.length))
  /-- The first instruction that does not run is a supported gate, and `e` is the first of its
  angles without a value. -/
  | unbound {before after : List (Instruction α)} {op : StandardGate} {valued rest : List (Angle α)}
      {e : Angle α} {qubits : List QubitId} {clbits : List ClbitId}
      (split : c.instructions = before ++
        ⟨.gate ⟨.standard op, valued ++ e :: rest⟩, qubits, clbits⟩ :: after)
      (runs : ∀ j ∈ before, j.Runs) (supported : op.isSupported = true)
      (values : ∀ a ∈ valued, a.halfTurns.isSome = true) (fault : e.halfTurns = none) :
      Compiles c (.error (.unboundParameter op.name before.length
        (if e.symbols.isEmpty then e.text else ", ".intercalate e.symbols)))
  /-- All instructions run, `i` is the first gate with a measured operand, and `q` is the first such
  operand. -/
  | reused {before after : List (Instruction α)} {i : Instruction α} {fresh rest : List QubitId}
      {q : QubitId} (runs : ∀ j ∈ c.instructions, j.Runs)
      (split : c.instructions = before ++ i :: after)
      (clean : before.Pairwise fun m j => m.isMeasure = true → j.Avoids m.qubits)
      (gate : i.isGate = true) (operands : i.qubits = fresh ++ q :: rest)
      (unmeasured : ∀ p ∈ fresh, ¬ Instruction.Measured before p)
      (fault : Instruction.Measured before q) :
      Compiles c (.error (.measuredQubitReused i.name before.length q))
  /-- The images of all instructions in order, and for each classical bit the index of the qubit
  that is last measured into it. -/
  | done {images : List (List (Engine.Gate α))}
      (become : List.Forall₂ (Instruction.Becomes c.place) c.instructions images)
      (clean : c.instructions.Pairwise fun m i => m.isMeasure = true → i.Avoids m.qubits) :
      Compiles c (.ok ⟨⟨c.numQubits, images.flatten⟩, .ofCircuit ⟨true⟩ c,
        ⟨(List.range c.numClbits).map fun k => (c.lastInto? ⟨k⟩).map c.place⟩⟩)

end Circuit

/-! ## Errors of lowering -/

section Lowering

variable [DecimalText α] {c : Circuit α}

theorem Lowering.appendFrom_append (layout : QubitLayout) (position : ℕ)
    (before after : List (Instruction α)) (p : Engine.Program α) :
    appendFrom layout position (before ++ after) p =
      (appendFrom layout position before p >>=
        appendFrom layout (position + before.length) after) := by
  induction before generalizing position p with
  | nil => rfl
  | cons i rest ih =>
    simp only [List.cons_append, appendFrom, bind_assoc, ih, List.length_cons]
    simp only [Nat.add_assoc, Nat.add_comm 1]

/-- An instruction that cannot be lowered decides the answer if those before it run. -/
theorem Circuit.WellFormed.compile_eq_error (h : c.WellFormed)
    {before after : List (Instruction α)} {i : Instruction α}
    (hsplit : c.instructions = before ++ i :: after) (hruns : ∀ j ∈ before, j.Runs)
    {e : LoweringError}
    (hi : Lowering.instruction (.ofCircuit ⟨true⟩ c) before.length i = .error e) :
    c.compile = .error e := by
  have hfits (j : Instruction α) (hj : j ∈ before) : j.Fits c.numQubits c.numClbits :=
    h.instructions j (hsplit ▸ List.mem_append_left _ hj)
  obtain ⟨images, himages⟩ := exists_forall₂ fun j hj => h.exists_lowers (hfits j hj) (hruns j hj)
  have hbefore : Lowering.appendFrom (.ofCircuit ⟨true⟩ c) 0 before (.empty c.numQubits) = .ok _ :=
    Lowering.appendFrom_eq_ok.mpr ⟨images, himages, h.fits_of_forall₂ hfits himages, rfl⟩
  have hlower : c.lower ⟨true⟩ = .error e := by
    rw [Circuit.lower, hsplit, Lowering.appendFrom_append, hbefore, Nat.zero_add]
    change Lowering.appendFrom _ _ (i :: after) _ = _
    rw [Lowering.appendFrom, hi]
    rfl
  rw [compile, hlower]
  rfl

theorem Lowering.instruction_of_unsupported {layout : QubitLayout} {position : ℕ}
    {i : Instruction α} (hi : i.Unsupported) :
    instruction layout position i = .error (.unsupportedGate i.name position) := by
  obtain ⟨kind, qubits, clbits⟩ := i
  cases kind with
  | gate g =>
    obtain ⟨kind, params⟩ := g
    cases kind with
    | standard op =>
      have hop : op.isSupported = false := hi
      simp only [instruction, gate, hop, Bool.not_false, if_true]
      rfl
    | custom op => rfl
  | reset => rfl
  | measure => exact hi.elim
  | barrier => exact hi.elim

theorem Lowering.instruction_of_unbound {layout : QubitLayout} {position : ℕ} {op : StandardGate}
    {valued rest : List (Angle α)} {e : Angle α} {qubits : List QubitId} {clbits : List ClbitId}
    (hop : op.isSupported = true) (hvalued : ∀ a ∈ valued, a.halfTurns.isSome = true)
    (he : e.halfTurns = none) :
    instruction layout position
        ⟨.gate ⟨.standard op, valued ++ e :: rest⟩, qubits, clbits⟩ =
      .error (.unboundParameter op.name position
        (if e.symbols.isEmpty then e.text else ", ".intercalate e.symbols)) := by
  have hvalues (a : Angle α) (ha : a ∈ valued) : ∃ x, radians op.name position a = .ok x := by
    obtain ⟨t, ht⟩ := Option.isSome_iff_exists.mp (hvalued a ha)
    exact ⟨_, radians_eq_ok.mpr (Angle.radians_eq_some.mpr ⟨t, ht, rfl⟩)⟩
  have hfault : radians op.name position e = .error (.unboundParameter op.name position
      (if e.symbols.isEmpty then e.text else ", ".intercalate e.symbols)) := by
    rw [radians, Angle.radians, he]
    rfl
  have hangles : (valued ++ e :: rest).mapM (radians op.name position) = .error _ :=
    mapM_eq_error hvalues hfault
  simp only [instruction, gate, hop, Bool.not_true, Bool.false_eq_true, if_false]
  change (_ >>= _) = _
  rw [show (Gate.name ⟨.standard op, valued ++ e :: rest⟩ : String) = op.name from rfl, hangles]
  rfl

end Lowering

/-! ## Errors of the readout -/

section Readout

variable {c : Circuit α}

omit [Scalar α] in
theorem Instruction.measured_cons {i : Instruction α} {rest : List (Instruction α)} {q : QubitId} :
    Measured (i :: rest) q ↔ (i.isMeasure = true ∧ q ∈ i.qubits) ∨ Measured rest q := by
  simp only [Measured, List.exists_mem_cons_iff]

omit [Scalar α] in
theorem Reading.mem_measured_foldl {instructions : List (Instruction α)} {r : Reading}
    (hi : ∀ i ∈ instructions, i.isMeasure = true → ∃ q b, i = .measure q b) {q : QubitId} :
    q ∈ (instructions.foldl Reading.next r).measured ↔
      q ∈ r.measured ∨ Instruction.Measured instructions q := by
  induction instructions generalizing r with
  | nil => simp [Instruction.Measured]
  | cons i rest ih =>
    obtain ⟨hi, hrest⟩ := List.forall_mem_cons.mp hi
    rw [List.foldl_cons, ih hrest, Instruction.measured_cons]
    by_cases hm : i.isMeasure = true
    · obtain ⟨p, b, rfl⟩ := hi hm
      rw [next_eq_of_target (Instruction.target?_eq_some.mpr rfl), List.mem_cons]
      simp only [Instruction.measure, List.mem_singleton]
      tauto
    · simp [next_eq_self (Instruction.target?_eq_none hm), hm]

omit [Scalar α] in
theorem Readout.Scan.run_append (layout : QubitLayout) (clbits : List Clbit) (position : ℕ)
    (before after : List (Instruction α)) (s : Scan) :
    run layout clbits position (before ++ after) s =
      (run layout clbits position before s >>=
        run layout clbits (position + before.length) after) := by
  induction before generalizing position s with
  | nil => rfl
  | cons i rest ih =>
    simp only [List.cons_append, run, bind_assoc, ih, List.length_cons]
    simp only [Nat.add_assoc, Nat.add_comm 1]

omit [Scalar α] in
theorem Readout.Scan.step_of_measured (layout : QubitLayout) (clbits : List Clbit)
    {i : Instruction α} (hi : i.isGate = true) {fresh rest : List QubitId} {q : QubitId} {s : Scan}
    (hoperands : i.qubits = fresh ++ q :: rest) (hfresh : ∀ p ∈ fresh, p ∉ s.measured)
    (hq : q ∈ s.measured) (position : ℕ) :
    s.step layout clbits i position = .error (.measuredQubitReused i.name position q) := by
  obtain ⟨kind, qubits, bits⟩ := i
  obtain rfl : qubits = fresh ++ q :: rest := hoperands
  have hfind : (fresh ++ q :: rest).find? (· ∈ s.measured) = some q :=
    List.find?_eq_some_iff_append.mpr ⟨by simpa using hq, fresh, rest, rfl, by simpa using hfresh⟩
  cases kind with
  | gate g => simp only [step, hfind]
  | _ => cases hi

omit [Scalar α] in
/-- A gate on a measured qubit decides the readout if nothing before it is on a measured qubit. -/
theorem Circuit.WellFormed.readout_eq_error (h : c.WellFormed)
    {before after : List (Instruction α)} {i : Instruction α} {fresh rest : List QubitId}
    {q : QubitId} (hsplit : c.instructions = before ++ i :: after)
    (hclean : before.Pairwise fun m j => m.isMeasure = true → j.Avoids m.qubits)
    (hgate : i.isGate = true) (hoperands : i.qubits = fresh ++ q :: rest)
    (hfresh : ∀ p ∈ fresh, ¬ Instruction.Measured before p)
    (hfault : Instruction.Measured before q) :
    Readout.ofCircuit (.ofCircuit ⟨true⟩ c) c =
      .error (.measuredQubitReused i.name before.length q) := by
  have hfits (j : Instruction α) (hj : j ∈ before) : j.Fits c.numQubits c.numClbits :=
    h.instructions j (hsplit ▸ List.mem_append_left _ hj)
  have hmeasure (j : Instruction α) (hj : j ∈ before) := (hfits j hj).eq_measure
  have haccepts : (Reading.start c).Accepts before :=
    (Reading.accepts_iff hmeasure).mpr ⟨fun j _ => j.avoids_nil, hclean⟩
  have hbefore : Readout.Scan.run (.ofCircuit ⟨true⟩ c) c.clbits 0 before
      ((Reading.start c).scan c) = .ok ((before.foldl Reading.next (.start c)).scan c) :=
    (Readout.Scan.run_eq_ok h hfits).mpr ⟨haccepts, rfl⟩
  have hmeasured (p : QubitId) : p ∈ ((before.foldl Reading.next (.start c)).scan c).measured ↔
      Instruction.Measured before p := by
    rw [Reading.scan, Reading.mem_measured_foldl hmeasure]
    exact or_iff_right List.not_mem_nil
  have hstep := Readout.Scan.step_of_measured (.ofCircuit ⟨true⟩ c) c.clbits hgate hoperands
    (fun p hp => (hmeasured p).not.mpr (hfresh p hp)) ((hmeasured q).mpr hfault) before.length
  rw [Readout.ofCircuit, ← Readout.scan_start h, hsplit, Readout.Scan.run_append, hbefore,
    Nat.zero_add]
  change (Readout.Scan.run _ _ _ (i :: after) _ >>= _) = _
  rw [Readout.Scan.run, hstep]
  rfl

end Readout

/-! ## Every circuit of the builder -/

namespace Circuit

variable [DecimalText α] {c : Circuit α}

theorem Compiles.compile_eq {r : Except LoweringError (Compiled α)} (hr : c.Compiles r)
    (h : c.WellFormed) : c.compile = r := by
  cases hr with
  | unsupported split runs fault =>
    exact h.compile_eq_error split runs (Lowering.instruction_of_unsupported fault)
  | unbound split runs supported values fault =>
    exact h.compile_eq_error split runs (Lowering.instruction_of_unbound supported values fault)
  | reused runs split clean gate operands unmeasured fault =>
    obtain ⟨images, himages⟩ := exists_forall₂ fun i hi =>
      h.exists_lowers (h.instructions i hi) (runs i hi)
    have hlower : c.lower ⟨true⟩ = .ok _ :=
      lower_eq_ok.mpr ⟨images, himages, h.fits_of_forall₂ h.instructions himages, rfl⟩
    rw [compile, hlower]
    change (Readout.ofCircuit _ c >>= _) = _
    rw [h.readout_eq_error split clean gate operands unmeasured fault]
    rfl
  | @done images become clean =>
    have hlowers := (h.forall₂_lowers_iff h.instructions).mpr become
    have haccepts : (Reading.start c).Accepts c.instructions :=
      (Reading.accepts_iff fun i hi => (h.instructions i hi).eq_measure).mpr
        ⟨fun i _ => i.avoids_nil, clean⟩
    refine compile_eq_ok.mpr ⟨?_, rfl, ?_⟩
    · exact lower_eq_ok.mpr ⟨images, hlowers, h.fits_of_forall₂ h.instructions hlowers, rfl⟩
    · refine (Readout.ofCircuit_eq_ok h).mpr ⟨haccepts, ?_⟩
      simp only [Reading.scan, sources_eq, List.map_map, Function.comp_def]

/-- A checked instruction that does not run is unsupported, or an angle of it has no value. -/
theorem fault_of_not_runs {before after : List (Instruction α)} {i : Instruction α}
    (hsplit : c.instructions = before ++ i :: after) (hruns : ∀ j ∈ before, j.Runs)
    (hi : ¬ i.Runs) : ∃ e, c.Compiles (.error e) := by
  by_cases hfault : i.Unsupported
  · exact ⟨_, .unsupported hsplit hruns hfault⟩
  obtain ⟨kind, qubits, clbits⟩ := i
  cases kind with
  | reset => exact absurd trivial hfault
  | measure => exact absurd trivial hi
  | barrier => exact absurd trivial hi
  | gate g =>
    obtain ⟨kind, params⟩ := g
    have hsupported : kind.isSupported = true := by simpa [Instruction.Unsupported] using hfault
    cases kind with
    | custom op => cases hsupported
    | standard op =>
      rcases forall_or_first (fun e => e.halfTurns.isSome = true) params with
        hall | ⟨valued, e, rest, rfl, hvalued, he⟩
      · exact absurd ⟨hsupported, hall⟩ hi
      · exact ⟨_, .unbound hsplit hruns hsupported hvalued (by simpa using he)⟩

/-- An instruction that runs and acts on a measured qubit is a gate, and one of its operands is the
first measured one. -/
theorem fault_of_reuse (hruns : ∀ j ∈ c.instructions, j.Runs) {before after : List (Instruction α)}
    {i : Instruction α} (hsplit : c.instructions = before ++ i :: after)
    (hclean : before.Pairwise fun m j => m.isMeasure = true → j.Avoids m.qubits)
    (hi : ∃ m ∈ before, ¬(m.isMeasure = true → i.Avoids m.qubits)) :
    ∃ e, c.Compiles (.error e) := by
  obtain ⟨m, hm, hmi⟩ := hi
  obtain ⟨hmeasure, havoids⟩ := Classical.not_imp.mp hmi
  have hrun := hruns i (hsplit ▸ List.mem_append_right _ List.mem_cons_self)
  obtain ⟨kind, qubits, clbits⟩ := i
  cases kind with
  | reset => exact hrun.elim
  | measure => exact absurd trivial havoids
  | barrier => exact absurd trivial havoids
  | gate g =>
    rcases forall_or_first (fun q => ¬ Instruction.Measured before q) qubits with
      hall | ⟨fresh, q, rest, rfl, hfresh, hq⟩
    · exact absurd (fun q hq hmq => hall q hq ⟨m, hm, hmeasure, hmq⟩) havoids
    · exact ⟨_, .reused hruns hsplit hclean rfl rfl hfresh (not_not.mp hq)⟩

theorem WellFormed.exists_compiles (h : c.WellFormed) : ∃ r, c.Compiles r := by
  rcases forall_or_first Instruction.Runs c.instructions with
    hruns | ⟨before, i, after, hsplit, hruns, hi⟩
  · rcases pairwise_or_first (fun m i => m.isMeasure = true → i.Avoids m.qubits) c.instructions with
      hclean | ⟨before, i, after, hsplit, hclean, m, hm, hmi⟩
    · obtain ⟨images, himages⟩ := exists_forall₂ fun i hi =>
        h.exists_lowers (h.instructions i hi) (hruns i hi)
      exact ⟨_, .done ((h.forall₂_lowers_iff h.instructions).mp himages) hclean⟩
    · obtain ⟨e, he⟩ := fault_of_reuse hruns hsplit hclean ⟨m, hm, hmi⟩
      exact ⟨_, he⟩
  · obtain ⟨e, he⟩ := fault_of_not_runs hsplit hruns hi
    exact ⟨_, he⟩

/-- Compiling a circuit from the builder answers as specified, and in no other way. -/
theorem Built.compile_eq_iff (h : c.Built) {r : Except LoweringError (Compiled α)} :
    c.compile = r ↔ c.Compiles r := by
  obtain ⟨r', hr'⟩ := h.wellFormed.exists_compiles
  constructor
  · intro hr
    exact (hr'.compile_eq h.wellFormed).symm.trans hr ▸ hr'
  · exact fun hr => hr.compile_eq h.wellFormed

/-- A gate after the measurement of its qubit is refused at position two. -/
theorem compile_eq_iff_reused :
    let before : List (Instruction Float) := [.ofGate (.fixed .h) [⟨0⟩], .measure ⟨0⟩ ⟨0⟩]
    let late : Instruction Float := .ofGate (.fixed .x) [⟨0⟩]
    ∃ c, (withSize "reused" 1 1).appendAll (before ++ [late]) = .ok c ∧ c.Built ∧
      c.compile = .error (.measuredQubitReused "x" 2 ⟨0⟩) := by
  intro before late
  have happend : (withSize "reused" 1 1).appendAll (before ++ [late]) = .ok _ := rfl
  have hbuilt := Built.appendAll (.withSize "reused" 1 1) happend
  have hruns : ∀ j ∈ before ++ [late], j.Runs := by
    intro j hj
    simp only [before, late, List.cons_append, List.nil_append, List.mem_cons, List.not_mem_nil,
      or_false] at hj
    rcases hj with rfl | rfl | rfl
    · exact ⟨by decide, fun e he => absurd he List.not_mem_nil⟩
    · trivial
    · exact ⟨by decide, fun e he => absurd he List.not_mem_nil⟩
  have hclean : before.Pairwise fun m j => m.isMeasure = true → j.Avoids m.qubits := by
    simp [before, Instruction.ofGate, Instruction.isMeasure]
  have hmeasured : Instruction.Measured before ⟨0⟩ :=
    ⟨.measure ⟨0⟩ ⟨0⟩, by simp [before], rfl, List.mem_singleton.mpr rfl⟩
  refine ⟨_, happend, hbuilt, hbuilt.compile_eq_iff.mpr ?_⟩
  change Compiles _ (.error (.measuredQubitReused late.name before.length ⟨0⟩))
  exact .reused hruns rfl hclean rfl rfl (fun p hp => absurd hp List.not_mem_nil) hmeasured

end Circuit

end KetSim

import Mathlib
import KetSim.Proofs.Circuit.InPlace

/-! # What a builder accepts

An instruction is valid for a circuit when its operands are declared wires, no
qubit is repeated, and its operands and angles have the numbers that its kind asks
for. Appending succeeds for the valid instructions alone, so after any operations
the circuit holds the valid ones among the instructions that were asked for, in
the order of the calls. A builder that works in place leaves the circuit as it was
when it refuses.
-/
namespace KetSim

variable {α : Type}

/-! ## Valid instructions -/

namespace Instruction

/-- The operands and the angles have the numbers that the kind asks for. -/
def Counted (i : Instruction α) : Prop :=
  match i.kind with
  | .gate ⟨.standard op, params⟩ =>
    params.length = op.numParams ∧ i.qubits.length = op.numQubits
  | .gate ⟨.custom op, _⟩ => i.qubits.length = op.numQubits
  | .measure => i.qubits.length = 1 ∧ i.clbits.length = 1
  | .reset => i.qubits.length = 1
  | .barrier => True

instance (i : Instruction α) : Decidable i.Counted :=
  match i with
  | ⟨.gate ⟨.standard _, _⟩, _, _⟩ => inferInstanceAs (Decidable (_ ∧ _))
  | ⟨.gate ⟨.custom _, _⟩, _, _⟩ => inferInstanceAs (Decidable (_ = _))
  | ⟨.measure, _, _⟩ => inferInstanceAs (Decidable (_ ∧ _))
  | ⟨.reset, _, _⟩ => inferInstanceAs (Decidable (_ = _))
  | ⟨.barrier, _, _⟩ => inferInstanceAs (Decidable True)

structure Valid (c : Circuit α) (i : Instruction α) : Prop where
  qubits : ∀ q ∈ i.qubits, ∃ w ∈ c.qubits, w.id = q
  nodup : i.qubits.Nodup
  clbits : ∀ b ∈ i.clbits, ∃ w ∈ c.clbits, w.id = b
  counted : i.Counted

instance (c : Circuit α) : DecidablePred (Valid c) := fun i =>
  decidable_of_iff ((∀ q ∈ i.qubits, ∃ w ∈ c.qubits, w.id = q) ∧ i.qubits.Nodup ∧
    (∀ b ∈ i.clbits, ∃ w ∈ c.clbits, w.id = b) ∧ i.Counted)
    ⟨fun h => ⟨h.1, h.2.1, h.2.2.1, h.2.2.2⟩, fun h => ⟨h.1, h.2, h.3, h.4⟩⟩

theorem counted_iff {i : Instruction α} : i.Counted ↔
    Circuit.checkParams i.kind = .ok () ∧ Circuit.checkArity i = .ok () ∧
      Circuit.checkTarget i = .ok () := by
  obtain ⟨kind, qubits, clbits⟩ := i
  cases kind with
  | gate g =>
    obtain ⟨kind, params⟩ := g
    cases kind <;>
      simp [Counted, Circuit.checkParams, Circuit.checkArity, Circuit.arity?, Circuit.checkTarget,
        isMeasure, Gate.numQubits, GateKind.numQubits]
  | _ =>
    simp [Counted, Circuit.checkParams, Circuit.checkArity, Circuit.arity?, Circuit.checkTarget,
      isMeasure]

end Instruction

namespace Circuit

/-- The id of a wire is its place in the order of declaration. -/
structure Indexed (c : Circuit α) : Prop where
  qubits : c.qubits.map (·.id) = (List.range c.numQubits).map QubitId.mk
  clbits : c.clbits.map (·.id) = (List.range c.numClbits).map ClbitId.mk

theorem Built.indexed [Zero α] [Add α] {c : Circuit α} (h : c.Built) : c.Indexed :=
  ⟨h.filed.qubit_ids, h.wellFormed.clbits⟩

namespace Indexed

variable {c : Circuit α}

theorem addClbits (h : c.Indexed) (n : ℕ) : (c.addClbits n).Indexed where
  qubits := h.qubits
  clbits := by
    rw [numClbits_addClbits, range_add_map, ← h.clbits]
    simp [Circuit.addClbits]

theorem declared_qubit_iff (h : c.Indexed) (q : QubitId) :
    (∃ w ∈ c.qubits, w.id = q) ↔ q.index < c.numQubits := by
  rw [← List.mem_map, h.qubits, List.mem_map]
  exact ⟨fun ⟨k, hk, hq⟩ => hq ▸ List.mem_range.mp hk, fun hq => ⟨_, List.mem_range.mpr hq, rfl⟩⟩

theorem declared_clbit_iff (h : c.Indexed) (b : ClbitId) :
    (∃ w ∈ c.clbits, w.id = b) ↔ b.index < c.numClbits := by
  rw [← List.mem_map, h.clbits, List.mem_map]
  exact ⟨fun ⟨k, hk, hb⟩ => hb ▸ List.mem_range.mp hk, fun hb => ⟨_, List.mem_range.mpr hb, rfl⟩⟩

theorem valid_iff (h : c.Indexed) (i : Instruction α) :
    i.Valid c ↔ i.Fits c.numQubits c.numClbits := by
  constructor
  · rintro ⟨hq, hn, hb, hcount⟩
    obtain ⟨hp, ha, ht⟩ := Instruction.counted_iff.mp hcount
    exact ⟨fun q hmem => (h.declared_qubit_iff q).mp (hq q hmem), hn,
      fun b hmem => (h.declared_clbit_iff b).mp (hb b hmem), hp, ha, ht⟩
  · rintro ⟨hq, hn, hb, hp, ha, ht⟩
    exact ⟨fun q hmem => (h.declared_qubit_iff q).mpr (hq q hmem), hn,
      fun b hmem => (h.declared_clbit_iff b).mpr (hb b hmem),
      Instruction.counted_iff.mpr ⟨hp, ha, ht⟩⟩

theorem check_eq_ok (h : c.Indexed) (i : Instruction α) : c.check i = .ok () ↔ i.Valid c :=
  checkAgainst_eq_ok.trans (h.valid_iff i).symm

theorem append_of_valid (h : c.Indexed) {i : Instruction α} (hi : i.Valid c) :
    c.append i = .ok { c with instructions := c.instructions ++ [i] } :=
  append_eq_ok_iff.mpr ⟨(h.check_eq_ok i).mpr hi, rfl⟩

theorem append_of_not_valid (h : c.Indexed) {i : Instruction α} (hi : ¬ i.Valid c) :
    ∃ e, c.append i = .error e := by
  cases hr : c.append i with
  | error e => exact ⟨e, rfl⟩
  | ok d => exact absurd ((h.check_eq_ok i).mp (append_eq_ok_iff.mp hr).1) hi

theorem appendAll_of_valid (h : c.Indexed) {added : List (Instruction α)}
    (hadded : ∀ i ∈ added, i.Valid c) :
    c.appendAll added = .ok { c with instructions := c.instructions ++ added } :=
  appendAll_eq_ok.mpr ⟨fun i hi => (h.valid_iff i).mp (hadded i hi), rfl⟩

/-- A barrier across all qubits names each of them once. -/
theorem valid_barrier (h : c.Indexed) : (Instruction.barrier (c.qubits.map (·.id))).Valid c := by
  refine ⟨fun q hq => List.mem_map.mp hq, ?_, fun b hb => absurd hb List.not_mem_nil, trivial⟩
  change (c.qubits.map (·.id)).Nodup
  rw [h.qubits]
  exact List.nodup_range.map fun _ _ hk => congrArg QubitId.index hk

end Indexed

theorem Indexed.valid_fixed {c : Circuit α} (h : c.Indexed) {op : StandardGate}
    {qubits : List QubitId} (hlt : ∀ q ∈ qubits, q.index < c.numQubits) (hnodup : qubits.Nodup)
    (hparams : op.numParams = 0) (hcount : qubits.length = op.numQubits) :
    (Instruction.ofGate (.fixed op) qubits).Valid c where
  qubits q hq := (h.declared_qubit_iff q).mpr (hlt q hq)
  nodup := hnodup
  clbits _ hb := absurd hb List.not_mem_nil
  counted := ⟨hparams.symm, hcount⟩

theorem Indexed.valid_measure {c : Circuit α} (h : c.Indexed) {q : QubitId} {b : ClbitId}
    (hq : q.index < c.numQubits) (hb : b.index < c.numClbits) :
    (Instruction.measure q b).Valid c where
  qubits := List.forall_mem_singleton.mpr ((h.declared_qubit_iff q).mpr hq)
  nodup := List.nodup_singleton q
  clbits := List.forall_mem_singleton.mpr ((h.declared_clbit_iff b).mpr hb)
  counted := ⟨rfl, rfl⟩

/-- One measurement of each qubit, into the bit of the same number. -/
def measurements (n : ℕ) : List (Instruction α) :=
  (List.range n).map fun k => .measure ⟨k⟩ ⟨k⟩

/-- Measuring all qubits declares the missing bits first, so each measurement is valid. -/
theorem Indexed.measureAll {c : Circuit α} (h : c.Indexed) :
    ∃ d, c.measureAll = .ok d ∧ d.instructions = c.instructions ++ measurements c.numQubits := by
  have hwires := h.addClbits (c.numQubits - c.numClbits)
  refine ⟨_, hwires.appendAll_of_valid fun i hi => ?_, rfl⟩
  obtain ⟨k, hk, rfl⟩ := List.mem_map.mp hi
  have hlt : k < c.numQubits := List.mem_range.mp hk
  refine hwires.valid_measure hlt ?_
  rw [numClbits_addClbits]
  exact hlt.trans_le le_add_tsub

theorem instructions_addQubits (c : Circuit α) (n : ℕ) :
    (c.addQubits n).instructions = c.instructions := by
  unfold addQubits
  split <;> rfl

/-! ## Pairs and chains -/

section Entangled

/-- The instructions of the measured pair. -/
def pair : List (Instruction α) :=
  [.ofGate (.fixed .h) [⟨0⟩], .ofGate (.fixed .cx) [⟨0⟩, ⟨1⟩], .measure ⟨0⟩ ⟨0⟩, .measure ⟨1⟩ ⟨1⟩]

/-- The entangling gates of the chain. -/
def ladder (n : ℕ) : List (Instruction α) :=
  .ofGate (.fixed .h) [⟨0⟩] ::
    (List.range (n - 1)).map fun k => .ofGate (.fixed .cx) [⟨k⟩, ⟨k + 1⟩]

/-- The instructions of the measured chain; without qubits there are none. -/
def chain (n : ℕ) : List (Instruction α) :=
  if n = 0 then [] else ladder n ++ measurements n

variable [Zero α]

theorem instructions_withSize (name : String) (n m : ℕ) :
    (withSize name n m : Circuit α).instructions = [] :=
  instructions_addQubits _ n

variable [Add α]

theorem valid_of_mem_pair {i : Instruction α} (hi : i ∈ pair) :
    i.Valid (withSize "bell" 2 2) := by
  have h := (Built.withSize "bell" 2 2 : (_ : Circuit α).Built).indexed
  simp only [pair, List.mem_cons, List.not_mem_nil, or_false] at hi
  rcases hi with rfl | rfl | rfl | rfl
  · exact h.valid_fixed (by simp) (by simp) rfl rfl
  · exact h.valid_fixed (by simp) (by simp) rfl rfl
  · exact h.valid_measure (by simp) (by simp)
  · exact h.valid_measure (by simp) (by simp)

theorem bell_eq_ok : ∃ d : Circuit α, bell = .ok d ∧ d.instructions = pair := by
  have hall : (withSize "bell" 2 2 : Circuit α).appendAll pair = bell := by
    simp only [pair, appendAll_cons, appendAll_nil]
    rfl
  have h := (Built.withSize "bell" 2 2 : (_ : Circuit α).Built).indexed
  exact ⟨_, hall ▸ h.appendAll_of_valid fun i hi => valid_of_mem_pair hi, rfl⟩

theorem valid_of_mem_ladder {n : ℕ} (hn : n ≠ 0) {i : Instruction α} (hi : i ∈ ladder n) :
    i.Valid (withSize "ghz" n n) := by
  have h := (Built.withSize "ghz" n n : (_ : Circuit α).Built).indexed
  rcases List.mem_cons.mp hi with rfl | hi
  · exact h.valid_fixed (by simpa using Nat.pos_of_ne_zero hn) (by simp) rfl rfl
  · obtain ⟨k, hk, rfl⟩ := List.mem_map.mp hi
    have hlt : k + 1 < n := by
      have := List.mem_range.mp hk
      omega
    exact h.valid_fixed (by simp; omega) (by simp) rfl rfl

theorem ghz_eq_ok (n : ℕ) : ∃ d : Circuit α, ghz n = .ok d ∧ d.instructions = chain n := by
  by_cases hn : n = 0
  · subst hn
    exact ⟨_, rfl, rfl⟩
  · have h := (Built.withSize "ghz" n n : (_ : Circuit α).Built).indexed
    have hghz : ghz n = ((withSize "ghz" n n : Circuit α).appendAll (ladder n)).bind
        (·.measureAll) := by
      rw [ghz, if_neg hn, ladder, appendAll_cons]
      exact (bind_assoc (m := Except CircuitError) _ _ _).symm
    have hladder := h.appendAll_of_valid fun i hi => valid_of_mem_ladder hn hi
    have hbuilt := Built.appendAll (.withSize "ghz" n n) hladder
    obtain ⟨d, hd, hinstructions⟩ := hbuilt.indexed.measureAll
    refine ⟨d, by rw [hghz, hladder]; exact hd, ?_⟩
    have hcount := numQubits_withSize (α := α) "ghz" n n
    rw [numQubits] at hcount
    rw [hinstructions, chain, if_neg hn, numQubits, hcount, instructions_withSize]
    rfl

end Entangled

/-! ## The record of the accepted instructions -/

section Record

/-- The instruction that an operation asks the circuit to append. -/
def Operation.asked? : Operation α → Option (Instruction α)
  | .append i => some i
  | .apply op params qubits => some (.ofGate ⟨.standard op, params⟩ qubits)
  | .gate g qubits => some (.ofGate g qubits)
  | .measure q b => some (.measure q b)
  | .reset q => some (.reset q)
  | .barrier qubits => some (.barrier qubits)
  | _ => none

/-- The record after an operation on a circuit: starting anew clears it, binding rewrites it, and
an instruction asked for is added to it exactly if it is valid. -/
def Operation.record (c : Circuit α) (log : List (Instruction α)) :
    Operation α → List (Instruction α)
  | .new _ | .withSize _ _ _ => []
  | .bell => pair
  | .ghz n => chain n
  | .measureAll => log ++ measurements c.numQubits
  | .barrierAll => log ++ [.barrier (c.qubits.map (·.id))]
  | .bind values => log.map (·.bind values)
  | op => log ++ op.asked?.toList.filter (·.Valid c)

variable [Zero α] [Add α]

/-- The record after operations on a circuit. -/
def record (c : Circuit α) (log : List (Instruction α)) :
    List (Operation α) → List (Instruction α)
  | [] => log
  | op :: rest => (c.step op).record (op.record c log) rest

variable {c : Circuit α}

theorem Indexed.instructions_of_append (h : c.Indexed) {op : Operation α} (i : Instruction α)
    (hop : c.perform op = c.append i) :
    (c.step op).instructions = c.instructions ++ [i].filter (·.Valid c) := by
  unfold step
  by_cases hi : i.Valid c
  · simp [hop, h.append_of_valid hi, hi]
  · obtain ⟨e, he⟩ := h.append_of_not_valid hi
    simp [hop, he, hi]

theorem step_of_ok {d : Circuit α} (op : Operation α) (hop : c.perform op = .ok d) :
    c.step op = d := by
  rw [step, hop]

/-- A built-in gate with the wrong number of angles is refused before it reaches the circuit. -/
theorem Indexed.instructions_apply (h : c.Indexed) (op : StandardGate) (params : List (Angle α))
    (qubits : List QubitId) : (c.step (.apply op params qubits)).instructions =
      c.instructions ++ [.ofGate ⟨.standard op, params⟩ qubits].filter (·.Valid c) := by
  by_cases hparams : params.length = op.numParams
  · refine h.instructions_of_append _ ?_
    simp only [perform, Circuit.apply, Gate.standard, ne_eq, hparams, not_true_eq_false, if_false]
    rfl
  · have hvalid : ¬ (Instruction.ofGate ⟨.standard op, params⟩ qubits).Valid c :=
      fun hi => hparams hi.counted.1
    simp [step, perform, Circuit.apply, Gate.standard, hparams, hvalid, Bind.bind, Except.bind]

theorem Indexed.instructions_step (h : c.Indexed) (op : Operation α) :
    (c.step op).instructions = op.record c c.instructions := by
  cases op with
  | new name => rfl
  | withSize name n m => exact instructions_withSize name n m
  | bell =>
    obtain ⟨d, hd, hrecord⟩ := bell_eq_ok (α := α)
    rw [step_of_ok .bell hd, hrecord]
    rfl
  | ghz n =>
    obtain ⟨d, hd, hrecord⟩ := ghz_eq_ok (α := α) n
    rw [step_of_ok (.ghz n) hd, hrecord]
    rfl
  | addQubit => exact (instructions_addQubits c 1).trans (List.append_nil _).symm
  | addQubitRegister name size =>
    by_cases hname : c.qregs.any (·.name == name) <;>
      simp [step, perform, addQubitRegister, hname, Except.map, Operation.record, Operation.asked?]
  | addClbit => exact (List.append_nil _).symm
  | addClbitRegister name size =>
    by_cases hname : c.clbits.any (·.register == name) <;>
      simp [step, perform, addClbitRegister, hname, Except.map, Operation.record, Operation.asked?]
  | append i => exact h.instructions_of_append i rfl
  | apply op params qubits => exact h.instructions_apply op params qubits
  | gate g qubits => exact h.instructions_of_append (.ofGate g qubits) rfl
  | measure q b => exact h.instructions_of_append (.measure q b) rfl
  | measureAll =>
    obtain ⟨d, hd, hrecord⟩ := h.measureAll
    rw [step_of_ok .measureAll hd, hrecord]
    rfl
  | reset q => exact h.instructions_of_append (.reset q) rfl
  | barrier qubits => exact h.instructions_of_append (.barrier qubits) rfl
  | barrierAll =>
    rw [step_of_ok .barrierAll (h.append_of_valid h.valid_barrier)]
    rfl
  | addPhase x => exact (List.append_nil _).symm
  | bind values => rfl

/-- After any operations the circuit holds the record of them. -/
theorem Built.instructions_after (h : c.Built) (ops : List (Operation α)) :
    (c.after ops).instructions = c.record c.instructions ops := by
  induction ops generalizing c with
  | nil => rfl
  | cons op rest ih =>
    have hstep : (c.step op).Built := by
      unfold step
      split
      · rename_i d hd
        exact h.perform hd
      · exact h
    rw [record, ← h.indexed.instructions_step op]
    exact ih hstep

/-! ### In place -/

omit [Zero α] [Add α] in
theorem Indexed.append_in_place (h : c.Indexed) (i : Instruction α) :
    (∀ d, Builder.append i c = .ok () d ↔
      i.Valid c ∧ d = { c with instructions := c.instructions ++ [i] }) ∧
    ∀ d, (∃ e, Builder.append i c = .error e d) ↔ ¬ i.Valid c ∧ d = c := by
  rw [Builder.append_eq]
  by_cases hi : i.Valid c
  · rw [h.append_of_valid hi]
    simp [Builder.settled, hi, eq_comm]
  · obtain ⟨e, he⟩ := h.append_of_not_valid hi
    rw [he]
    simp [Builder.settled, hi, eq_comm]

/-- The operations that append several instructions of their own. -/
def Operation.Composite : Operation α → Prop
  | .measureAll | .barrierAll | .bell | .ghz _ => True
  | _ => False

theorem Indexed.exists_perform (h : c.Indexed) {op : Operation α} (hop : op.Composite) :
    ∃ d, c.perform op = .ok d := by
  cases op with
  | measureAll =>
    obtain ⟨d, hd, -⟩ := h.measureAll
    exact ⟨d, hd⟩
  | barrierAll => exact ⟨_, h.append_of_valid h.valid_barrier⟩
  | bell =>
    obtain ⟨d, hd, -⟩ := bell_eq_ok (α := α)
    exact ⟨d, hd⟩
  | ghz n =>
    obtain ⟨d, hd, -⟩ := ghz_eq_ok (α := α) n
    exact ⟨d, hd⟩
  | _ => cases hop

theorem eq_of_perform_in_place {op : Operation α} {e : CircuitError} {d : Circuit α}
    (h : Builder.perform op c = .error e d) : d = c := by
  rw [Builder.perform_eq] at h
  cases hr : c.perform op with
  | error e' =>
    rw [hr] at h
    exact (EStateM.Result.error.inj h).2.symm
  | ok d' =>
    rw [hr] at h
    cases h

/-- A circuit with indexed wires takes a valid instruction at its end, and any other one is refused
and leaves it as it is. So a built circuit holds the record of the operations on it. Measuring all
qubits, a barrier across them, the pair and the chain of any length are never refused. A builder in
place does the same, and an operation that it refuses has changed nothing. -/
theorem append_exactly_valid (c : Circuit α) (hc : c.Indexed) :
    (∀ (i : Instruction α),
      (∀ d, c.append i = .ok d ↔
        i.Valid c ∧ d = { c with instructions := c.instructions ++ [i] }) ∧
      (¬ i.Valid c → (∃ e, c.append i = .error e) ∧ c.step (.append i) = c)) ∧
    (∀ d : Circuit α, d.Built → d.Indexed ∧
      (∀ ops, (d.after ops).instructions = d.record d.instructions ops) ∧
      (∃ e, d.measureAll = .ok e) ∧ ∃ e, d.barrierAll = .ok e) ∧
    ((∃ d : Circuit α, bell = .ok d) ∧ ∀ n, ∃ d : Circuit α, ghz n = .ok d) ∧
    (∀ (i : Instruction α),
      (∀ d, Builder.append i c = .ok () d ↔
        i.Valid c ∧ d = { c with instructions := c.instructions ++ [i] }) ∧
      ∀ d, (∃ e, Builder.append i c = .error e d) ↔ ¬ i.Valid c ∧ d = c) ∧
    (∀ (d : Circuit α) op e d', Builder.perform op d = .error e d' → d' = d) ∧
    ∀ d : Circuit α, d.Built →
      (∀ ops, (Builder.after ops d).instructions = d.record d.instructions ops) ∧
      ∀ op : Operation α, op.Composite → ∃ e, Builder.perform op d = .ok () e := by
  have hcomposite (d : Circuit α) (hd : d.Indexed) (op : Operation α) (hop : op.Composite) :
      ∃ e, d.perform op = .ok e := hd.exists_perform hop
  refine ⟨fun i => ⟨fun d => ?_, fun hi => ?_⟩, fun d hd => ?_,
    ⟨hcomposite c hc .bell trivial, fun n => hcomposite c hc (.ghz n) trivial⟩,
    hc.append_in_place, fun d op e d' => eq_of_perform_in_place, fun d hd => ⟨fun ops => ?_, ?_⟩⟩
  · rw [append_eq_ok_iff, hc.check_eq_ok]
  · obtain ⟨e, he⟩ := hc.append_of_not_valid hi
    exact ⟨⟨e, he⟩, by simp only [step, perform, he]⟩
  · exact ⟨hd.indexed, hd.instructions_after, hcomposite d hd.indexed .measureAll trivial,
      hcomposite d hd.indexed .barrierAll trivial⟩
  · rw [Builder.after_eq, hd.instructions_after]
  · intro op hop
    obtain ⟨e, he⟩ := hcomposite d hd.indexed op hop
    rw [Builder.perform_eq, he]
    exact ⟨e, rfl⟩

/-- A measurement onto the one classical bit is taken. A controlled gate on one qubit twice is not,
which in place leaves the circuit as it was, and neither is a rotation without an angle. -/
theorem append_exactly_valid_pair :
    let c : Circuit ℤ := withSize "pair" 2 1
    let double : Instruction ℤ := .ofGate (.fixed .cx) [⟨1⟩, ⟨1⟩]
    let angleless : Instruction ℤ := .ofGate (.fixed .rx) [⟨0⟩]
    (∃ d, c.append (.measure ⟨1⟩ ⟨0⟩) = .ok d) ∧ (∃ e, c.append double = .error e) ∧
      (∃ e, Builder.append double c = .error e c) ∧
      (c.after [.append double, .measure ⟨1⟩ ⟨0⟩, .append angleless]).instructions =
        [.measure ⟨1⟩ ⟨0⟩] := by
  intro c double angleless
  have hbuilt : c.Built := .withSize "pair" 2 1
  obtain ⟨happend, hrun, -, hplace, -⟩ := append_exactly_valid c hbuilt.indexed
  refine ⟨⟨_, ((happend _).1 _).mpr ⟨by decide, rfl⟩⟩, ((happend _).2 (by decide)).1,
    ((hplace double).2 c).mpr ⟨by decide, rfl⟩, ?_⟩
  rw [(hrun c hbuilt).2.1]
  rfl

end Record

end Circuit

end KetSim

import Mathlib
import KetSim.Circuit.Basic
import KetSim.Proofs.Outcome

/-! # Circuits that a builder reaches

Every circuit starts empty and grows by declarations, checked instructions,
phases and bindings. Each of these steps keeps the wires numbered without gaps,
every qubit in one register, and every instruction in line with its kind.
-/
namespace KetSim

variable {α : Type}

/-! ## Checked instructions -/

/-- What the check of an instruction promises about its operands. -/
structure Instruction.Fits (i : Instruction α) (numQubits numClbits : ℕ) : Prop where
  lt : ∀ q ∈ i.qubits, q.index < numQubits
  nodup : i.qubits.Nodup
  clbits_lt : ∀ b ∈ i.clbits, b.index < numClbits
  params : Circuit.checkParams i.kind = .ok ()
  arity : Circuit.checkArity i = .ok ()
  target : Circuit.checkTarget i = .ok ()

namespace Circuit

theorem checkQubits_eq_ok {n : ℕ} {gate : String} {seen qubits : List QubitId} :
    checkQubits n gate seen qubits = .ok () ↔
      (∀ q ∈ qubits, q.index < n ∧ q ∉ seen) ∧ qubits.Nodup := by
  induction qubits generalizing seen with
  | nil => simp [checkQubits]
  | cons q rest ih =>
    rw [checkQubits]
    split
    · simp; omega
    · split
      · simp_all
      · rw [ih]
        grind

theorem checkClbits_eq_ok {n : ℕ} {gate : String} {clbits : List ClbitId} :
    checkClbits n gate clbits = .ok () ↔ ∀ b ∈ clbits, b.index < n := by
  induction clbits with
  | nil => simp [checkClbits]
  | cons b rest ih =>
    rw [checkClbits]
    split
    · simp; omega
    · simp_all

theorem checkAgainst_eq_ok {n m : ℕ} {i : Instruction α} :
    checkAgainst n m i = .ok () ↔ i.Fits n m := by
  simp only [checkAgainst, bind_unit_eq_ok, checkQubits_eq_ok, checkClbits_eq_ok]
  constructor
  · rintro ⟨⟨hq, hn⟩, hc, hp, ha, ht⟩
    exact ⟨fun q h => (hq q h).1, hn, hc, hp, ha, ht⟩
  · rintro ⟨hq, hn, hc, hp, ha, ht⟩
    exact ⟨⟨fun q h => ⟨hq q h, List.not_mem_nil⟩, hn⟩, hc, hp, ha, ht⟩

end Circuit

namespace Instruction.Fits

variable {i : Instruction α} {n m n' m' : ℕ}

theorem mono (h : i.Fits n m) (hn : n ≤ n') (hm : m ≤ m') : i.Fits n' m' :=
  { h with
    lt := fun q hq => (h.lt q hq).trans_le hn
    clbits_lt := fun b hb => (h.clbits_lt b hb).trans_le hm }

theorem bind (h : i.Fits n m) (values : Binding α) : (i.bind values).Fits n m := by
  obtain ⟨kind, qubits, clbits⟩ := i
  cases kind with
  | gate g =>
    obtain ⟨kind, params⟩ := g
    refine ⟨h.lt, h.nodup, h.clbits_lt, ?_, h.arity, h.target⟩
    have hp := h.params
    cases kind with
    | standard op => simpa [Circuit.checkParams, Instruction.bind, Gate.bind] using hp
    | custom op => rfl
  | measure => exact h
  | reset => exact h
  | barrier => exact h

theorem length_qubits (h : i.Fits n m) {g : Gate α} (hi : i.kind = .gate g) :
    i.qubits.length = g.numQubits := by
  have ha := h.arity
  simp only [Circuit.checkArity, hi, Circuit.arity?] at ha
  by_contra hne
  simp [hne] at ha

theorem length_params (h : i.Fits n m) {op : StandardGate} {params : List (Angle α)}
    (hi : i.kind = .gate ⟨.standard op, params⟩) : params.length = op.numParams := by
  have hp := h.params
  simp only [Circuit.checkParams, hi] at hp
  by_contra hne
  simp [hne] at hp

theorem measure (h : i.Fits n m) (hi : i.kind = .measure) :
    ∃ q b, i.qubits = [q] ∧ i.clbits = [b] := by
  have ha := h.arity
  have ht := h.target
  simp only [Circuit.checkArity, hi, Circuit.arity?] at ha
  simp only [Circuit.checkTarget, Instruction.isMeasure, hi, Bool.true_and] at ht
  have hq : i.qubits.length = 1 := by
    by_contra hne
    simp [hne] at ha
  have hb : i.clbits.length = 1 := by
    by_contra hne
    simp [hne] at ht
  obtain ⟨q, hq⟩ := List.length_eq_one_iff.mp hq
  obtain ⟨b, hb⟩ := List.length_eq_one_iff.mp hb
  exact ⟨q, b, hq, hb⟩

theorem eq_measure (h : i.Fits n m) (hi : i.isMeasure = true) : ∃ q b, i = .measure q b := by
  obtain ⟨kind, qubits, clbits⟩ := i
  cases kind with
  | measure =>
    obtain ⟨q, b, hq, hb⟩ := h.measure rfl
    obtain rfl : qubits = [q] := hq
    obtain rfl : clbits = [b] := hb
    exact ⟨q, b, rfl⟩
  | _ => cases hi

end Instruction.Fits

/-! ## Builder steps -/

namespace Circuit

/-- The circuits that the builder reaches. The numbers of their wires are words as long as there
are no more than `wireLimit` of them; what depends on this asks for it. -/
inductive Built [Zero α] [Add α] : Circuit α → Prop
  | new (name : String) : Built (new name)
  | addQubits {c : Circuit α} (h : Built c) (n : ℕ) : Built (c.addQubits n)
  | addQubitRegister {c d : Circuit α} {name : String} {size : ℕ} {ids : List QubitId}
      (h : Built c) (hd : c.addQubitRegister name size = .ok (d, ids)) : Built d
  | addClbits {c : Circuit α} (h : Built c) (n : ℕ) : Built (c.addClbits n)
  | addClbitRegister {c d : Circuit α} {name : String} {size : ℕ} {ids : List ClbitId}
      (h : Built c) (hd : c.addClbitRegister name size = .ok (d, ids)) : Built d
  | append {c d : Circuit α} {i : Instruction α} (h : Built c) (hd : c.append i = .ok d) : Built d
  | addPhase {c : Circuit α} (h : Built c) (halfTurns : α) : Built (c.addPhase halfTurns)
  | bind {c : Circuit α} (h : Built c) (values : Binding α) : Built (c.bind values)

namespace Built

variable [Zero α] [Add α] {c d : Circuit α}

theorem withSize (name : String) (numQubits numClbits : ℕ) :
    (withSize name numQubits numClbits : Circuit α).Built :=
  ((Built.new name).addQubits numQubits).addClbits numClbits

theorem appendAll (h : c.Built) {added : List (Instruction α)} (hd : c.appendAll added = .ok d) :
    d.Built := by
  induction added generalizing c with
  | nil =>
    rw [appendAll_nil] at hd
    exact Except.ok.inj hd ▸ h
  | cons i rest ih =>
    rw [appendAll_cons] at hd
    obtain ⟨e, he, hd⟩ := bind_eq_ok.mp hd
    exact ih (h.append he) hd

theorem measureAll (h : c.Built) (hd : c.measureAll = .ok d) : d.Built :=
  (h.addClbits _).appendAll hd

end Built

/-- The wires are numbered without gaps, every qubit lies in one register, and every instruction
passes its check. -/
structure WellFormed (c : Circuit α) : Prop where
  qubits : (c.qregs.flatMap (·.qubits)).Perm ((List.range c.numQubits).map QubitId.mk)
  clbits : c.clbits.map (·.id) = (List.range c.numClbits).map ClbitId.mk
  instructions : ∀ i ∈ c.instructions, i.Fits c.numQubits c.numClbits

theorem mem_gates {c : Circuit α} {i : Instruction α} (hi : i ∈ c.instructions) {g : Gate α}
    (hg : i.kind = .gate g) : g ∈ c.gates :=
  List.mem_filterMap.mpr ⟨i, hi, by simp [Instruction.gate?, hg]⟩

theorem range_add_map {β : Type} (f : ℕ → β) (n m : ℕ) :
    (List.range (n + m)).map f = (List.range n).map f ++ (List.range m).map fun i => f (n + i) := by
  rw [List.range_add, List.map_append, List.map_map]
  rfl

theorem flatMap_extend_perm (name : String) (ids : List QubitId) (regs : List QuantumRegister) :
    ((QuantumRegister.extend name ids regs).flatMap (·.qubits)).Perm
      (regs.flatMap (·.qubits) ++ ids) := by
  induction regs with
  | nil => simp [QuantumRegister.extend]
  | cons r rest ih =>
    rw [QuantumRegister.extend]
    split
    · simp only [List.flatMap_cons, List.append_assoc]
      exact (List.perm_append_comm).append_left r.qubits
    · simp only [List.flatMap_cons, List.append_assoc]
      exact ih.append_left r.qubits

namespace WellFormed

variable {c d : Circuit α}

theorem extendQubits (h : c.WellFormed) {n : ℕ} (hn : d.numQubits = c.numQubits + n)
    (hq : (d.qregs.flatMap (·.qubits)).Perm (c.qregs.flatMap (·.qubits) ++
      (List.range n).map fun i => ⟨c.numQubits + i⟩))
    (hc : d.clbits = c.clbits) (hi : d.instructions = c.instructions) : d.WellFormed := by
  have hm : d.numClbits = c.numClbits := by rw [numClbits, hc, numClbits]
  refine ⟨?_, by rw [hm, hc, h.clbits], ?_⟩
  · rw [hn, range_add_map]
    exact hq.trans (h.qubits.append_right _)
  · rw [hi, hn, hm]
    exact fun i hi => (h.instructions i hi).mono (Nat.le_add_right _ _) le_rfl

theorem extendClbits (h : c.WellFormed) {n : ℕ} (hq : d.qubits = c.qubits)
    (hr : d.qregs = c.qregs) (hc : d.clbits.map (·.id) = c.clbits.map (·.id) ++
      (List.range n).map fun i => ⟨c.numClbits + i⟩)
    (hi : d.instructions = c.instructions) : d.WellFormed := by
  have hn : d.numQubits = c.numQubits := by rw [numQubits, hq, numQubits]
  have hm : d.numClbits = c.numClbits + n := by
    have hlen := congrArg List.length hc
    simpa [numClbits] using hlen
  refine ⟨by rw [hn, hr]; exact h.qubits, by rw [hc, hm, range_add_map, h.clbits], ?_⟩
  rw [hi, hn, hm]
  exact fun i hi => (h.instructions i hi).mono le_rfl (Nat.le_add_right _ _)

theorem addQubits (h : c.WellFormed) (n : ℕ) : (c.addQubits n).WellFormed := by
  unfold Circuit.addQubits
  split
  · exact h
  · exact h.extendQubits (n := n) (by simp [numQubits]) (flatMap_extend_perm _ _ _) rfl rfl

theorem addQubitRegister (h : c.WellFormed) {name : String} {size : ℕ} {ids : List QubitId}
    (hd : c.addQubitRegister name size = .ok (d, ids)) : d.WellFormed := by
  unfold Circuit.addQubitRegister at hd
  split at hd
  · cases hd
  · simp only [Except.ok.injEq, Prod.mk.injEq] at hd
    obtain ⟨rfl, -⟩ := hd
    exact h.extendQubits (n := size) (by simp [numQubits]) (by simp) rfl rfl

theorem addClbits (h : c.WellFormed) (n : ℕ) : (c.addClbits n).WellFormed :=
  h.extendClbits (n := n) rfl rfl (by simp [Circuit.addClbits]) rfl

theorem addClbitRegister (h : c.WellFormed) {name : String} {size : ℕ} {ids : List ClbitId}
    (hd : c.addClbitRegister name size = .ok (d, ids)) : d.WellFormed := by
  unfold Circuit.addClbitRegister at hd
  split at hd
  · cases hd
  · simp only [Except.ok.injEq, Prod.mk.injEq] at hd
    obtain ⟨rfl, -⟩ := hd
    exact h.extendClbits (n := size) rfl rfl (by simp) rfl

theorem append (h : c.WellFormed) {i : Instruction α} (hd : c.append i = .ok d) :
    d.WellFormed := by
  obtain ⟨hi, rfl⟩ := append_eq_ok_iff.mp hd
  refine ⟨h.qubits, h.clbits, ?_⟩
  intro j hj
  rcases List.mem_append.mp hj with hj | hj
  · exact h.instructions j hj
  · rw [List.mem_singleton.mp hj]
    exact checkAgainst_eq_ok.mp hi

theorem bind (h : c.WellFormed) (values : Binding α) : (c.bind values).WellFormed := by
  refine ⟨h.qubits, h.clbits, ?_⟩
  intro j hj
  obtain ⟨i, hi, rfl⟩ := List.mem_map.mp hj
  exact (h.instructions i hi).bind values

theorem length_qubits_le (h : c.WellFormed) {i : Instruction α} (hi : i ∈ c.instructions) :
    i.qubits.length ≤ c.numQubits := by
  have hfits := h.instructions i hi
  have hsubset : i.qubits ⊆ (List.range c.numQubits).map QubitId.mk := fun q hq =>
    List.mem_map.mpr ⟨q.index, List.mem_range.mpr (hfits.lt q hq), rfl⟩
  have hlength := (List.Nodup.subperm hfits.nodup hsubset).length_le
  simpa using hlength

end WellFormed

/-- Every builder step keeps a circuit well-formed. -/
theorem Built.wellFormed [Zero α] [Add α] {c : Circuit α} (h : c.Built) : c.WellFormed := by
  induction h with
  | new name =>
    exact ⟨by simp [Circuit.new, numQubits], rfl, fun i hi => absurd hi List.not_mem_nil⟩
  | addQubits _ n ih => exact ih.addQubits n
  | addQubitRegister _ hd ih => exact ih.addQubitRegister hd
  | addClbits _ n ih => exact ih.addClbits n
  | addClbitRegister _ hd ih => exact ih.addClbitRegister hd
  | append _ hd ih => exact ih.append hd
  | addPhase _ x ih => exact ⟨ih.qubits, ih.clbits, ih.instructions⟩
  | bind _ values ih => exact ih.bind values

end Circuit

end KetSim

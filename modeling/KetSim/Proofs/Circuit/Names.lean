import Mathlib
import KetSim.Proofs.Circuit.Acceptance

/-! # Names of registers

Quantum registers are listed with their names, while a classical register leaves its
name on its bits alone. So a quantum register is declared under a name that no
operation has declared before, and a classical one under a name that no operation has
put on a bit: a classical register without bits leaves its name free.
-/
namespace KetSim.Circuit

variable {α : Type}

/-! ## Names in use -/

def qubitNames (c : Circuit α) : List String := c.qregs.map (·.name)

def clbitNames (c : Circuit α) : List String := c.clbits.map (·.register)

section Registers

variable {c : Circuit α} {name : String}

theorem addQubitRegister_of_mem (h : name ∈ c.qubitNames) (size : ℕ) :
    c.addQubitRegister name size = .error (.duplicateRegister name) := by
  have htaken : c.qregs.any (·.name == name) = true := by
    simpa [qubitNames] using h
  rw [addQubitRegister, if_pos htaken]

theorem addQubitRegister_of_notMem (h : name ∉ c.qubitNames) (size : ℕ) :
    ∃ d ids, c.addQubitRegister name size = .ok (d, ids) ∧
      d.qubitNames = c.qubitNames ++ [name] ∧ d.clbitNames = c.clbitNames := by
  have hfree : ¬ c.qregs.any (·.name == name) = true := by
    simpa [qubitNames] using h
  exact ⟨_, _, if_neg hfree, List.map_append, rfl⟩

theorem addClbitRegister_of_mem (h : name ∈ c.clbitNames) (size : ℕ) :
    c.addClbitRegister name size = .error (.duplicateRegister name) := by
  have htaken : c.clbits.any (·.register == name) = true := by
    simpa [clbitNames] using h
  rw [addClbitRegister, if_pos htaken]

theorem addClbitRegister_of_notMem (h : name ∉ c.clbitNames) (size : ℕ) :
    ∃ d ids, c.addClbitRegister name size = .ok (d, ids) ∧
      d.clbitNames = c.clbitNames ++ List.replicate size name ∧ d.qubitNames = c.qubitNames := by
  have hfree : ¬ c.clbits.any (·.register == name) = true := by
    simpa [clbitNames] using h
  exact ⟨_, _, if_neg hfree, by simp [clbitNames, Function.comp_def], rfl⟩

theorem mem_qubitNames_addQubits {n : ℕ} :
    name ∈ (c.addQubits n).qubitNames ↔ (n ≠ 0 ∧ name = defaultQubits) ∨ name ∈ c.qubitNames := by
  by_cases hn : n = 0
  · simp [addQubits, hn]
  · simp only [addQubits, if_neg hn, qubitNames, QuantumRegister.names_extend]
    split
    · rename_i hmem
      constructor
      · exact .inr
      · rintro (⟨-, rfl⟩ | hname)
        · exact hmem
        · exact hname
    · simp [hn, or_comm]

theorem clbitNames_addQubits (c : Circuit α) (n : ℕ) :
    (c.addQubits n).clbitNames = c.clbitNames := by
  unfold addQubits
  split <;> rfl

theorem mem_clbitNames_addClbits {n : ℕ} :
    name ∈ (c.addClbits n).clbitNames ↔ (n ≠ 0 ∧ name = defaultClbits) ∨ name ∈ c.clbitNames := by
  simp [addClbits, clbitNames, Function.comp_def, or_comm]

theorem mem_qubitNames_withSize [Zero α] {title : String} {n m : ℕ} :
    name ∈ (withSize title n m : Circuit α).qubitNames ↔ n ≠ 0 ∧ name = defaultQubits := by
  exact mem_qubitNames_addQubits.trans (or_iff_left List.not_mem_nil)

theorem mem_clbitNames_withSize [Zero α] {title : String} {n m : ℕ} :
    name ∈ (withSize title n m : Circuit α).clbitNames ↔ m ≠ 0 ∧ name = defaultClbits := by
  rw [withSize, mem_clbitNames_addClbits, clbitNames_addQubits]
  exact or_iff_left List.not_mem_nil

end Registers

/-! ## Operations that declare no wire -/

/-- The circuits have the same registers, qubits and classical bits. -/
structure SameWires (c d : Circuit α) : Prop where
  qregs : d.qregs = c.qregs
  qubits : d.qubits = c.qubits
  clbits : d.clbits = c.clbits

namespace SameWires

variable {c d e : Circuit α}

theorem trans (h : SameWires c d) (h' : SameWires d e) : SameWires c e :=
  ⟨h'.qregs.trans h.qregs, h'.qubits.trans h.qubits, h'.clbits.trans h.clbits⟩

theorem qubitNames_eq (h : SameWires c d) : d.qubitNames = c.qubitNames := by
  rw [qubitNames, h.qregs, qubitNames]

theorem clbitNames_eq (h : SameWires c d) : d.clbitNames = c.clbitNames := by
  rw [clbitNames, h.clbits, clbitNames]

theorem append {i : Instruction α} (hd : c.append i = .ok d) : SameWires c d := by
  obtain ⟨-, rfl⟩ := append_eq_ok_iff.mp hd
  exact ⟨rfl, rfl, rfl⟩

theorem appendAll {added : List (Instruction α)} (hd : c.appendAll added = .ok d) :
    SameWires c d := by
  obtain ⟨-, rfl⟩ := appendAll_eq_ok.mp hd
  exact ⟨rfl, rfl, rfl⟩

theorem apply {gate : StandardGate} {params : List (Angle α)} {qubits : List QubitId}
    (hd : c.apply gate params qubits = .ok d) : SameWires c d := by
  obtain ⟨g, -, hd⟩ := bind_eq_ok.mp hd
  exact append hd

theorem bell [Zero α] (hd : bell = .ok d) : SameWires (withSize "bell" 2 2) d := by
  obtain ⟨c₁, h₁, hd⟩ := bind_eq_ok.mp hd
  obtain ⟨c₂, h₂, hd⟩ := bind_eq_ok.mp hd
  obtain ⟨c₃, h₃, hd⟩ := bind_eq_ok.mp hd
  exact (((apply h₁).trans (apply h₂)).trans (append h₃)).trans (append hd)

/-- A chain is measured into the bits that it was declared with. -/
theorem ghz [Zero α] {n : ℕ} (hd : ghz n = .ok d) : SameWires (withSize "ghz" n n) d := by
  unfold Circuit.ghz at hd
  split at hd
  · rename_i hn
    obtain rfl := Except.ok.inj hd
    subst hn
    exact ⟨rfl, rfl, rfl⟩
  · obtain ⟨c₁, h₁, hd⟩ := bind_eq_ok.mp hd
    obtain ⟨c₂, h₂, hd⟩ := bind_eq_ok.mp hd
    have hchain := (apply h₁).trans (appendAll h₂)
    have hmissing : c₂.numQubits - c₂.numClbits = 0 := by
      have hqubits : c₂.numQubits = n := by
        rw [numQubits, hchain.qubits, ← numQubits, numQubits_withSize]
      have hclbits : c₂.numClbits = n := by
        rw [numClbits, hchain.clbits, ← numClbits, numClbits_withSize]
      omega
    have hnone : SameWires c₂ (c₂.addClbits (c₂.numQubits - c₂.numClbits)) := by
      rw [hmissing]
      exact ⟨rfl, rfl, List.append_nil _⟩
    exact (hchain.trans hnone).trans (appendAll hd)

end SameWires

/-- The operation declares no wire. -/
def Operation.Wireless : Operation α → Prop
  | .append _ | .apply _ _ _ | .gate _ _ | .measure _ _ | .reset _ | .barrier _ | .barrierAll
  | .addPhase _ | .bind _ => True
  | _ => False

variable [Zero α] [Add α]

theorem SameWires.step (c : Circuit α) {op : Operation α} (hop : op.Wireless) :
    SameWires c (c.step op) := by
  unfold Circuit.step
  split
  · rename_i d hd
    cases op with
    | append i => exact append hd
    | apply gate params qubits => exact apply hd
    | gate g qubits => exact append hd
    | measure q b => exact append hd
    | reset q => exact append hd
    | barrier qubits => exact append hd
    | barrierAll => exact append hd
    | addPhase x => exact Except.ok.inj hd ▸ ⟨rfl, rfl, rfl⟩
    | bind values => exact Except.ok.inj hd ▸ ⟨rfl, rfl, rfl⟩
    | _ => exact hop.elim
  · exact ⟨rfl, rfl, rfl⟩

/-! ## Names that operations declare -/

namespace Operation

/-- The operation works on the circuit at hand; the other ones begin a new circuit. -/
def Continues : Operation α → Prop
  | .new _ | .withSize _ _ _ | .bell | .ghz _ => False
  | _ => True

/-- The operation declares a quantum register of the name, or a qubit in the default one. -/
def NamesQubits (c : Circuit α) (name : String) : Operation α → Prop
  | .addQubit | .bell => name = defaultQubits
  | .withSize _ n _ | .ghz n => n ≠ 0 ∧ name = defaultQubits
  | .addQubitRegister label size =>
    label = name ∧ ∃ d, c.perform (.addQubitRegister label size) = .ok d
  | _ => False

/-- The operation declares a classical register of the name that has bits, or a bit in the default
one. -/
def NamesClbits (c : Circuit α) (name : String) : Operation α → Prop
  | .addClbit | .bell => name = defaultClbits
  | .withSize _ _ n | .ghz n => n ≠ 0 ∧ name = defaultClbits
  | .measureAll => c.numClbits < c.numQubits ∧ name = defaultClbits
  | .addClbitRegister label size =>
    label = name ∧ size ≠ 0 ∧ ∃ d, c.perform (.addClbitRegister label size) = .ok d
  | _ => False

end Operation

variable {c : Circuit α} {name : String}

/-! ### One operation -/

theorem step_of_error {op : Operation α} {e : CircuitError} (h : c.perform op = .error e) :
    c.step op = c := by
  rw [step, h]

/-- An outcome that a condition decides. -/
theorem map_decided {ε β γ : Type} {r : Except ε β} {f : β → γ} {e : ε} {taken : Prop}
    (htaken : taken → r = .error e) (hfree : ¬ taken → ∃ b, r = .ok b) :
    (r.map f = .error e ↔ taken) ∧ ((∃ d, r.map f = .ok d) ↔ ¬ taken) := by
  by_cases h : taken
  · rw [htaken h]
    exact ⟨iff_of_true rfl h, iff_of_false (fun ⟨d, hd⟩ => by cases hd) (not_not_intro h)⟩
  · obtain ⟨b, hb⟩ := hfree h
    rw [hb]
    exact ⟨iff_of_false (fun he => by cases he) h, iff_of_true ⟨f b, rfl⟩ h⟩

theorem perform_addQubitRegister (c : Circuit α) (name : String) (size : ℕ) :
    (c.perform (.addQubitRegister name size) = .error (.duplicateRegister name) ↔
        name ∈ c.qubitNames) ∧
      ((∃ d, c.perform (.addQubitRegister name size) = .ok d) ↔ name ∉ c.qubitNames) := by
  refine map_decided (addQubitRegister_of_mem · size) fun h => ?_
  obtain ⟨d, ids, hd, -⟩ := addQubitRegister_of_notMem h size
  exact ⟨_, hd⟩

theorem perform_addClbitRegister (c : Circuit α) (name : String) (size : ℕ) :
    (c.perform (.addClbitRegister name size) = .error (.duplicateRegister name) ↔
        name ∈ c.clbitNames) ∧
      ((∃ d, c.perform (.addClbitRegister name size) = .ok d) ↔ name ∉ c.clbitNames) := by
  refine map_decided (addClbitRegister_of_mem · size) fun h => ?_
  obtain ⟨d, ids, hd, -⟩ := addClbitRegister_of_notMem h size
  exact ⟨_, hd⟩

theorem names_step_addQubitRegister (c : Circuit α) (label : String) (size : ℕ) :
    (c.step (.addQubitRegister label size)).qubitNames =
        (if label ∈ c.qubitNames then c.qubitNames else c.qubitNames ++ [label]) ∧
      (c.step (.addQubitRegister label size)).clbitNames = c.clbitNames := by
  by_cases h : label ∈ c.qubitNames
  · rw [step_of_error ((perform_addQubitRegister c label size).1.mpr h), if_pos h]
    exact ⟨rfl, rfl⟩
  · obtain ⟨d, ids, hd, hnames⟩ := addQubitRegister_of_notMem h size
    have hperform : c.perform (.addQubitRegister label size) = .ok d := map_eq_ok.mpr ⟨_, hd, rfl⟩
    rw [step_of_ok _ hperform, if_neg h]
    exact hnames

theorem names_step_addClbitRegister (c : Circuit α) (label : String) (size : ℕ) :
    (c.step (.addClbitRegister label size)).clbitNames =
        (if label ∈ c.clbitNames then c.clbitNames
          else c.clbitNames ++ List.replicate size label) ∧
      (c.step (.addClbitRegister label size)).qubitNames = c.qubitNames := by
  by_cases h : label ∈ c.clbitNames
  · rw [step_of_error ((perform_addClbitRegister c label size).1.mpr h), if_pos h]
    exact ⟨rfl, rfl⟩
  · obtain ⟨d, ids, hd, hnames⟩ := addClbitRegister_of_notMem h size
    have hperform : c.perform (.addClbitRegister label size) = .ok d := map_eq_ok.mpr ⟨_, hd, rfl⟩
    rw [step_of_ok _ hperform, if_neg h]
    exact hnames

theorem SameWires.step_bell (c : Circuit α) : SameWires (withSize "bell" 2 2) (c.step .bell) := by
  obtain ⟨d, hd, -⟩ := bell_eq_ok (α := α)
  rw [step_of_ok .bell hd]
  exact bell hd

theorem SameWires.step_ghz (c : Circuit α) (n : ℕ) :
    SameWires (withSize "ghz" n n) (c.step (.ghz n)) := by
  obtain ⟨d, hd, -⟩ := ghz_eq_ok (α := α) n
  rw [step_of_ok (.ghz n) hd]
  exact ghz hd

theorem SameWires.step_measureAll (c : Circuit α) :
    SameWires (c.addClbits (c.numQubits - c.numClbits)) (c.step .measureAll) := by
  obtain ⟨d, hd⟩ := c.exists_measureAll
  rw [step_of_ok .measureAll hd]
  exact appendAll hd

theorem mem_qubitNames_of_wireless {op : Operation α} (hop : op.Wireless) :
    name ∈ (c.step op).qubitNames ↔
      op.NamesQubits c name ∨ (op.Continues ∧ name ∈ c.qubitNames) := by
  rw [(SameWires.step c hop).qubitNames_eq]
  cases op <;> simp_all [Operation.NamesQubits, Operation.Continues, Operation.Wireless]

theorem mem_clbitNames_of_wireless {op : Operation α} (hop : op.Wireless) :
    name ∈ (c.step op).clbitNames ↔
      op.NamesClbits c name ∨ (op.Continues ∧ name ∈ c.clbitNames) := by
  rw [(SameWires.step c hop).clbitNames_eq]
  cases op <;> simp_all [Operation.NamesClbits, Operation.Continues, Operation.Wireless]

/-- The quantum names after an operation are those that it declares, and those before it unless it
begins a new circuit. -/
theorem mem_qubitNames_step (c : Circuit α) (name : String) (op : Operation α) :
    name ∈ (c.step op).qubitNames ↔
      op.NamesQubits c name ∨ (op.Continues ∧ name ∈ c.qubitNames) := by
  cases op with
  | new title => simp [step, perform, qubitNames, new, Operation.NamesQubits, Operation.Continues]
  | withSize title n m =>
    simp only [Operation.NamesQubits, Operation.Continues, false_and, or_false]
    exact mem_qubitNames_withSize
  | bell =>
    simp only [Operation.NamesQubits, Operation.Continues, false_and, or_false]
    rw [(SameWires.step_bell c).qubitNames_eq, mem_qubitNames_withSize]
    exact and_iff_right (by decide)
  | ghz n =>
    simp only [Operation.NamesQubits, Operation.Continues, false_and, or_false]
    rw [(SameWires.step_ghz c n).qubitNames_eq, mem_qubitNames_withSize]
  | addQubit =>
    simp only [Operation.NamesQubits, Operation.Continues, true_and]
    exact mem_qubitNames_addQubits.trans (or_congr_left (and_iff_right one_ne_zero))
  | addQubitRegister label size =>
    simp only [Operation.NamesQubits, Operation.Continues, true_and,
      (perform_addQubitRegister c label size).2, (names_step_addQubitRegister c label size).1]
    by_cases h : label ∈ c.qubitNames
    · simp [h]
    · simp [h, eq_comm, or_comm]
  | addClbit =>
    simp only [Operation.NamesQubits, Operation.Continues, true_and, false_or]
    rfl
  | addClbitRegister label size =>
    simp only [Operation.NamesQubits, Operation.Continues, true_and, false_or]
    rw [(names_step_addClbitRegister c label size).2]
  | measureAll =>
    simp only [Operation.NamesQubits, Operation.Continues, true_and, false_or]
    rw [(SameWires.step_measureAll c).qubitNames_eq]
    rfl
  | _ => exact mem_qubitNames_of_wireless trivial

/-- The classical names after an operation are those that it declares, and those before it unless
it begins a new circuit. -/
theorem mem_clbitNames_step (c : Circuit α) (name : String) (op : Operation α) :
    name ∈ (c.step op).clbitNames ↔
      op.NamesClbits c name ∨ (op.Continues ∧ name ∈ c.clbitNames) := by
  cases op with
  | new title => simp [step, perform, clbitNames, new, Operation.NamesClbits, Operation.Continues]
  | withSize title n m =>
    simp only [Operation.NamesClbits, Operation.Continues, false_and, or_false]
    exact mem_clbitNames_withSize
  | bell =>
    simp only [Operation.NamesClbits, Operation.Continues, false_and, or_false]
    rw [(SameWires.step_bell c).clbitNames_eq, mem_clbitNames_withSize]
    exact and_iff_right (by decide)
  | ghz n =>
    simp only [Operation.NamesClbits, Operation.Continues, false_and, or_false]
    rw [(SameWires.step_ghz c n).clbitNames_eq, mem_clbitNames_withSize]
  | addQubit =>
    simp only [Operation.NamesClbits, Operation.Continues, true_and, false_or]
    exact iff_of_eq (congrArg (name ∈ ·) (clbitNames_addQubits c 1))
  | addQubitRegister label size =>
    simp only [Operation.NamesClbits, Operation.Continues, true_and, false_or]
    rw [(names_step_addQubitRegister c label size).2]
  | addClbit =>
    simp only [Operation.NamesClbits, Operation.Continues, true_and]
    exact mem_clbitNames_addClbits.trans (or_congr_left (and_iff_right one_ne_zero))
  | addClbitRegister label size =>
    simp only [Operation.NamesClbits, Operation.Continues, true_and,
      (perform_addClbitRegister c label size).2, (names_step_addClbitRegister c label size).1]
    by_cases h : label ∈ c.clbitNames
    · simp [h]
    · simp [h, eq_comm, or_comm, and_comm]
  | measureAll =>
    simp only [Operation.NamesClbits, Operation.Continues, true_and]
    rw [(SameWires.step_measureAll c).clbitNames_eq, mem_clbitNames_addClbits,
      Nat.sub_ne_zero_iff_lt]
  | _ => exact mem_clbitNames_of_wireless trivial

/-! ### Runs of operations -/

/-- One of the operations declares the name, and none after it begins a new circuit. -/
def DeclaredBy (declares : Circuit α → String → Operation α → Prop) (c : Circuit α)
    (ops : List (Operation α)) (name : String) : Prop :=
  ∃ before op later, ops = before ++ op :: later ∧ declares (c.after before) name op ∧
    ∀ o ∈ later, o.Continues

variable {declares : Circuit α → String → Operation α → Prop}

theorem declaredBy_concat {ops : List (Operation α)} {op : Operation α} :
    DeclaredBy declares c (ops ++ [op]) name ↔
      declares (c.after ops) name op ∨ (op.Continues ∧ DeclaredBy declares c ops name) := by
  constructor
  · rintro ⟨before, o, later, hops, hdeclares, hlater⟩
    -- the declaring operation is the last one, or the last one is among those after it
    rcases List.eq_nil_or_concat later with rfl | ⟨later, last, rfl⟩
    · obtain ⟨rfl, hlast⟩ := List.append_inj' hops rfl
      obtain rfl := (List.cons.inj hlast).1
      exact .inl hdeclares
    · rw [List.concat_eq_append, ← List.cons_append, ← List.append_assoc] at hops
      obtain ⟨rfl, hlast⟩ := List.append_inj' hops rfl
      obtain rfl := (List.cons.inj hlast).1
      rw [List.concat_eq_append] at hlater
      exact .inr ⟨hlater _ (List.mem_append_right _ List.mem_cons_self), before, o, later, rfl,
        hdeclares, fun o ho => hlater o (List.mem_append_left _ ho)⟩
  · rintro (hdeclares | ⟨hop, before, o, later, rfl, hdeclares, hlater⟩)
    · exact ⟨ops, op, [], rfl, hdeclares, fun o ho => absurd ho List.not_mem_nil⟩
    · refine ⟨before, o, later ++ [op], by simp, hdeclares, fun o ho => ?_⟩
      rcases List.mem_append.mp ho with ho | ho
      · exact hlater o ho
      · exact List.mem_singleton.mp ho ▸ hop

/-- If every operation adds the names that it declares, those after a run are the ones that an
operation of the run has declared. -/
theorem mem_names_after (names : Circuit α → List String)
    (hstep : ∀ d op, name ∈ names (d.step op) ↔
      declares d name op ∨ (op.Continues ∧ name ∈ names d))
    (hc : name ∉ names c) (ops : List (Operation α)) :
    name ∈ names (c.after ops) ↔ DeclaredBy declares c ops name := by
  -- from the last operation on, since that is the one that `hstep` is about
  induction ops using List.reverseRecOn with
  | nil =>
    refine iff_of_false hc ?_
    rintro ⟨before, op, later, hops, -⟩
    simp at hops
  | append_singleton ops op ih =>
    have hafter : c.after (ops ++ [op]) = (c.after ops).step op := List.foldl_concat _ _ _ _
    rw [hafter, hstep, ih, declaredBy_concat]

/-- After any operations on a new circuit, declaring a quantum register fails, and leaves the
circuit as it is, exactly if an operation on this circuit has declared a register of the name or
used it as the default one. The same holds of classical registers, but for those without bits:
they are declared without a trace. No declaration fails for another reason. -/
theorem names_declared_once (title : String) (ops : List (Operation α)) (name : String)
    (size : ℕ) :
    let c : Circuit α := (new title).after ops
    (c.perform (.addQubitRegister name size) = .error (.duplicateRegister name) ↔
      DeclaredBy Operation.NamesQubits (new title) ops name) ∧
    ((∃ d, c.perform (.addQubitRegister name size) = .ok d) ↔
      ¬ DeclaredBy Operation.NamesQubits (new title) ops name) ∧
    (DeclaredBy Operation.NamesQubits (new title) ops name →
      c.step (.addQubitRegister name size) = c) ∧
    (c.perform (.addClbitRegister name size) = .error (.duplicateRegister name) ↔
      DeclaredBy Operation.NamesClbits (new title) ops name) ∧
    ((∃ d, c.perform (.addClbitRegister name size) = .ok d) ↔
      ¬ DeclaredBy Operation.NamesClbits (new title) ops name) ∧
    (DeclaredBy Operation.NamesClbits (new title) ops name →
      c.step (.addClbitRegister name size) = c) := by
  intro c
  have hqubits : name ∈ c.qubitNames ↔ DeclaredBy Operation.NamesQubits (new title) ops name :=
    mem_names_after qubitNames (mem_qubitNames_step · name) List.not_mem_nil ops
  have hclbits : name ∈ c.clbitNames ↔ DeclaredBy Operation.NamesClbits (new title) ops name :=
    mem_names_after clbitNames (mem_clbitNames_step · name) List.not_mem_nil ops
  obtain ⟨hqubitError, hqubitOk⟩ := perform_addQubitRegister c name size
  obtain ⟨hclbitError, hclbitOk⟩ := perform_addClbitRegister c name size
  rw [← hqubits, ← hclbits]
  exact ⟨hqubitError, hqubitOk, fun h => step_of_error (hqubitError.mpr h), hclbitError, hclbitOk,
    fun h => step_of_error (hclbitError.mpr h)⟩

/-- A classical register without bits is declared, and then a second one of its name, which a
quantum register without qubits refuses. -/
theorem empty_register_declared_twice :
    let c : Circuit ℤ := new "twice"
    (∃ d, c.perform (.addClbitRegister "a" 0) = .ok d) ∧
      (∃ d, (c.after [.addClbitRegister "a" 0]).perform (.addClbitRegister "a" 1) = .ok d) ∧
      (c.after [.addQubitRegister "a" 0]).perform (.addQubitRegister "a" 1) =
        .error (.duplicateRegister "a") :=
  ⟨⟨_, rfl⟩, ⟨_, rfl⟩, rfl⟩

end KetSim.Circuit

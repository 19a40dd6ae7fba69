import Mathlib
import KetSim.Circuit.Entangled
import KetSim.Proofs.Circuit.Registers

/-! # Sequences of builder operations

Whatever operations are performed in whatever order, and whichever of them fail,
the circuit at hand is proper: its wires are numbered by declaration, each qubit
lies in one register at its own place, and each instruction has the operands that
its kind asks for.
-/
namespace KetSim

variable {α : Type}

/-! ## Proper circuits -/

/-- The operands are declared, no qubit is repeated, and the counts are those that the kind asks
for. Barriers ask for no number of qubits, custom gates for no number of parameters, and only
measurements ask for a number of classical bits. -/
structure Instruction.Proper (i : Instruction α) (numQubits numClbits : ℕ) : Prop where
  qubits_lt : ∀ q ∈ i.qubits, q.index < numQubits
  clbits_lt : ∀ b ∈ i.clbits, b.index < numClbits
  qubits_nodup : i.qubits.Nodup
  gate_qubits : ∀ g, i.kind = .gate g → i.qubits.length = g.numQubits
  gate_params : ∀ gate params, i.kind = .gate ⟨.standard gate, params⟩ →
    params.length = gate.numParams
  measure : i.kind = .measure → i.qubits.length = 1 ∧ i.clbits.length = 1
  reset : i.kind = .reset → i.qubits.length = 1

theorem Instruction.Fits.proper {i : Instruction α} {n m : ℕ} (h : i.Fits n m) : i.Proper n m where
  qubits_lt := h.lt
  clbits_lt := h.clbits_lt
  qubits_nodup := h.nodup
  gate_qubits _ hi := h.length_qubits hi
  gate_params _ _ hi := h.length_params hi
  measure hi := by
    obtain ⟨q, b, hq, hb⟩ := h.measure hi
    exact ⟨congrArg List.length hq, congrArg List.length hb⟩
  reset hi := by
    have ha := h.arity
    simp only [Circuit.checkArity, hi, Circuit.arity?] at ha
    by_contra hne
    simp [hne] at ha

namespace Circuit

/-- Every qubit lies in exactly one register, at the place that is its index and under the name that
it carries, and under every classical name the indices count from zero in the order of the bits. -/
structure Proper (c : Circuit α) : Prop where
  qubit_id : ∀ (k : ℕ) (q : Qubit), c.qubits[k]? = some q → q.id = ⟨k⟩
  clbit_id : ∀ (k : ℕ) (b : Clbit), c.clbits[k]? = some b → b.id = ⟨k⟩
  names_nodup : (c.qregs.map (·.name)).Nodup
  register : ∀ q ∈ c.qubits, ∃ r ∈ c.qregs, r.name = q.register ∧
    (∀ k, r.qubits[k]? = some q.id ↔ k = q.index) ∧ ∀ r' ∈ c.qregs, q.id ∈ r'.qubits → r' = r
  clbit_indices : ∀ name, (c.clbits.filter (·.register == name)).map (·.index) =
    List.range (c.clbits.countP (·.register == name))
  instructions : ∀ i ∈ c.instructions, i.Proper c.numQubits c.numClbits

/-- Only measurements write classical bits. -/
def Plain (c : Circuit α) : Prop :=
  ∀ i ∈ c.instructions, i.isMeasure = false → i.clbits = []

theorem id_of_map_range {β ι : Type} {xs : List β} {id : β → ι} {mk : ℕ → ι}
    (h : xs.map id = (List.range xs.length).map mk) {k : ℕ} {x : β} (hx : xs[k]? = some x) :
    id x = mk k := by
  have hlt := (List.getElem?_eq_some_iff.mp hx).1
  have hget := congrArg (·[k]?) h
  simp only [List.getElem?_map, hx, List.getElem?_range hlt, Option.map_some] at hget
  exact Option.some.inj hget

theorem Filed.proper {c : Circuit α} (h : c.Filed) (hc : c.WellFormed) : c.Proper where
  qubit_id _ _ hq := id_of_map_range h.qubit_ids hq
  clbit_id _ _ hb := id_of_map_range hc.clbits hb
  names_nodup := h.names_nodup
  register q hq := by
    obtain ⟨r, hr, hname⟩ := List.mem_map.mp (h.home q hq)
    refine ⟨r, hr, hname, fun k => ?_, fun r' hr' hmem => ?_⟩
    · rw [h.position_iff hq hr, hname]
      exact and_iff_right rfl
    · obtain ⟨k, hk⟩ := List.mem_iff_getElem?.mp hmem
      obtain ⟨hname', -⟩ := (h.position_iff hq hr' k).mp hk
      exact List.inj_on_of_nodup_map h.names_nodup hr' hr (hname'.symm.trans hname.symm)
  clbit_indices name := by
    simpa [Numbered, List.filter_map, List.countP_map, Function.comp_def] using h.clbits name
  instructions i hi := (hc.instructions i hi).proper

/-! ## Appending -/

variable {c d : Circuit α}

theorem appendAll_eq_ok {added : List (Instruction α)} : c.appendAll added = .ok d ↔
    (∀ i ∈ added, i.Fits c.numQubits c.numClbits) ∧
      d = { c with instructions := c.instructions ++ added } := by
  unfold appendAll
  simp only [bind_unit_eq_ok, forM_eq_ok, checkAgainst_eq_ok, Except.ok.injEq]
  rw [eq_comm]

/-- Measuring all qubits does not stop halfway, so there is no failure that would leave some of
its instructions. -/
theorem exists_measureAll (c : Circuit α) : ∃ d, c.measureAll = .ok d := by
  refine ⟨_, appendAll_eq_ok.mpr ⟨fun i hi => ?_, rfl⟩⟩
  obtain ⟨k, hk, rfl⟩ := List.mem_map.mp hi
  have hlt : k < c.numQubits := List.mem_range.mp hk
  refine ⟨?_, List.nodup_singleton _, ?_, rfl, rfl, rfl⟩
  · exact List.forall_mem_singleton.mpr (by simpa using hlt)
  · refine List.forall_mem_singleton.mpr ?_
    rw [numClbits_addClbits]
    have hle : c.numQubits ≤ c.numClbits + (c.numQubits - c.numClbits) := by omega
    exact hlt.trans_le hle

/-! ## Classical bits of other instructions -/

namespace Plain

theorem appendAll (h : c.Plain) {added : List (Instruction α)}
    (hadded : ∀ i ∈ added, i.isMeasure = false → i.clbits = []) (hd : c.appendAll added = .ok d) :
    d.Plain := by
  obtain ⟨-, rfl⟩ := appendAll_eq_ok.mp hd
  intro i hi
  exact (List.mem_append.mp hi).elim (h i) (hadded i)

theorem append (h : c.Plain) {i : Instruction α} (hi : i.isMeasure = false → i.clbits = [])
    (hd : c.append i = .ok d) : d.Plain := by
  obtain ⟨-, rfl⟩ := append_eq_ok_iff.mp hd
  intro j hj
  rcases List.mem_append.mp hj with hj | hj
  · exact h j hj
  · exact List.mem_singleton.mp hj ▸ hi

theorem addQubits (h : c.Plain) (n : ℕ) : (c.addQubits n).Plain := by
  unfold Circuit.addQubits
  split <;> exact h

theorem apply (h : c.Plain) {gate : StandardGate} {params : List (Angle α)} {qubits : List QubitId}
    (hd : c.apply gate params qubits = .ok d) : d.Plain := by
  obtain ⟨g, -, hd⟩ := bind_eq_ok.mp hd
  exact h.append (fun _ => rfl) hd

theorem measureAll (h : c.Plain) (hd : c.measureAll = .ok d) : d.Plain := by
  have hclbits : (c.addClbits (c.numQubits - c.numClbits)).Plain := h
  refine hclbits.appendAll (fun i hi hmeasure => ?_) hd
  obtain ⟨k, -, rfl⟩ := List.mem_map.mp hi
  cases hmeasure

theorem bind (h : c.Plain) (values : Binding α) : (c.bind values).Plain := by
  intro i hi hmeasure
  obtain ⟨j, hj, rfl⟩ := List.mem_map.mp hi
  obtain ⟨kind, qubits, clbits⟩ := j
  have hplain := h _ hj
  cases kind with
  | measure => cases hmeasure
  | gate g => exact hplain rfl
  | reset => exact hplain rfl
  | barrier => exact hplain rfl

end Plain

variable [Zero α]

theorem plain_new (name : String) : (new name : Circuit α).Plain :=
  fun _ hi => absurd hi List.not_mem_nil

theorem plain_withSize (name : String) (n m : ℕ) : (withSize name n m : Circuit α).Plain :=
  (plain_new name).addQubits n

theorem plain_bell (hd : bell = .ok d) : d.Plain := by
  obtain ⟨c₁, h₁, hd⟩ := bind_eq_ok.mp hd
  obtain ⟨c₂, h₂, hd⟩ := bind_eq_ok.mp hd
  obtain ⟨c₃, h₃, hd⟩ := bind_eq_ok.mp hd
  have hgates := ((plain_withSize "bell" 2 2).apply h₁).apply h₂
  exact (hgates.append (fun h => by cases h) h₃).append (fun h => by cases h) hd

theorem plain_ghz {n : ℕ} (hd : ghz n = .ok d) : d.Plain := by
  unfold ghz at hd
  split at hd
  · exact Except.ok.inj hd ▸ plain_new "ghz_0"
  · obtain ⟨c₁, h₁, hd⟩ := bind_eq_ok.mp hd
    obtain ⟨c₂, h₂, hd⟩ := bind_eq_ok.mp hd
    refine (((plain_withSize "ghz" n n).apply h₁).appendAll (fun i hi _ => ?_) h₂).measureAll hd
    obtain ⟨k, -, rfl⟩ := List.mem_map.mp hi
    rfl

/-! ## Operations -/

/-- What a builder can be asked for. Each of the gate methods is one gate with its parameters on
its qubits. -/
inductive Operation (α : Type)
  | new (name : String)
  | withSize (name : String) (numQubits numClbits : ℕ)
  | bell
  | ghz (n : ℕ)
  | addQubit
  | addQubitRegister (name : String) (size : ℕ)
  | addClbit
  | addClbitRegister (name : String) (size : ℕ)
  | append (i : Instruction α)
  | apply (gate : StandardGate) (params : List (Angle α)) (qubits : List QubitId)
  | gate (g : Gate α) (qubits : List QubitId)
  | measure (q : QubitId) (b : ClbitId)
  | measureAll
  | reset (q : QubitId)
  | barrier (qubits : List QubitId)
  | barrierAll
  | addPhase (halfTurns : α)
  | bind (values : Binding α)

variable [Add α]

def perform (c : Circuit α) : Operation α → Except CircuitError (Circuit α)
  | .new name => .ok (.new name)
  | .withSize name numQubits numClbits => .ok (.withSize name numQubits numClbits)
  | .bell => bell
  | .ghz n => ghz n
  | .addQubit => .ok c.addQubit.1
  | .addQubitRegister name size => (c.addQubitRegister name size).map (·.1)
  | .addClbit => .ok c.addClbit.1
  | .addClbitRegister name size => (c.addClbitRegister name size).map (·.1)
  | .append i => c.append i
  | .apply gate params qubits => c.apply gate params qubits
  | .gate g qubits => c.append (.ofGate g qubits)
  | .measure q b => c.measure q b
  | .measureAll => c.measureAll
  | .reset q => c.reset q
  | .barrier qubits => c.barrier qubits
  | .barrierAll => c.barrierAll
  | .addPhase halfTurns => .ok (c.addPhase halfTurns)
  | .bind values => .ok (c.bind values)

/-- A failing operation leaves the circuit as it is. -/
def step (c : Circuit α) (op : Operation α) : Circuit α :=
  match c.perform op with
  | .ok d => d
  | .error _ => c

def after (c : Circuit α) (ops : List (Operation α)) : Circuit α := ops.foldl step c

/-! ### Steps of the builder -/

theorem Built.bell (hd : bell = .ok d) : d.Built := by
  obtain ⟨c₁, h₁, hd⟩ := bind_eq_ok.mp hd
  obtain ⟨g₁, -, h₁⟩ := bind_eq_ok.mp h₁
  obtain ⟨c₂, h₂, hd⟩ := bind_eq_ok.mp hd
  obtain ⟨g₂, -, h₂⟩ := bind_eq_ok.mp h₂
  obtain ⟨c₃, h₃, hd⟩ := bind_eq_ok.mp hd
  exact ((((Built.withSize "bell" 2 2).append h₁).append h₂).append h₃).append hd

theorem Built.ghz {n : ℕ} (hd : ghz n = .ok d) : d.Built := by
  unfold Circuit.ghz at hd
  split at hd
  · exact Except.ok.inj hd ▸ .new "ghz_0"
  · obtain ⟨c₁, h₁, hd⟩ := bind_eq_ok.mp hd
    obtain ⟨g, -, h₁⟩ := bind_eq_ok.mp h₁
    obtain ⟨c₂, h₂, hd⟩ := bind_eq_ok.mp hd
    exact (((Built.withSize "ghz" n n).append h₁).appendAll h₂).measureAll hd

theorem Built.perform (h : c.Built) {op : Operation α} (hd : c.perform op = .ok d) : d.Built := by
  cases op with
  | new name => exact Except.ok.inj hd ▸ .new name
  | withSize name n m => exact Except.ok.inj hd ▸ .withSize name n m
  | bell => exact .bell hd
  | ghz n => exact .ghz hd
  | addQubit => exact Except.ok.inj hd ▸ h.addQubits 1
  | addQubitRegister name size =>
    obtain ⟨⟨e, ids⟩, he, rfl⟩ := map_eq_ok.mp hd
    exact h.addQubitRegister he
  | addClbit => exact Except.ok.inj hd ▸ h.addClbits 1
  | addClbitRegister name size =>
    obtain ⟨⟨e, ids⟩, he, rfl⟩ := map_eq_ok.mp hd
    exact h.addClbitRegister he
  | append i => exact h.append hd
  | apply gate params qubits =>
    obtain ⟨g, -, hd⟩ := bind_eq_ok.mp hd
    exact h.append hd
  | gate g qubits => exact h.append hd
  | measure q b => exact h.append hd
  | measureAll => exact h.measureAll hd
  | reset q => exact h.append hd
  | barrier qubits => exact h.append hd
  | barrierAll => exact h.append hd
  | addPhase x => exact Except.ok.inj hd ▸ h.addPhase x
  | bind values => exact Except.ok.inj hd ▸ h.bind values

theorem Plain.perform (h : c.Plain) {op : Operation α}
    (hop : ∀ i, op = .append i → i.isMeasure = false → i.clbits = [])
    (hd : c.perform op = .ok d) : d.Plain := by
  cases op with
  | new name => exact Except.ok.inj hd ▸ plain_new name
  | withSize name n m => exact Except.ok.inj hd ▸ plain_withSize name n m
  | bell => exact plain_bell hd
  | ghz n => exact plain_ghz hd
  | addQubit => exact Except.ok.inj hd ▸ h.addQubits 1
  | addQubitRegister name size =>
    obtain ⟨⟨e, ids⟩, he, rfl⟩ := map_eq_ok.mp hd
    unfold Circuit.addQubitRegister at he
    split at he
    · cases he
    · exact (Prod.mk.inj (Except.ok.inj he)).1 ▸ h
  | addClbit => exact Except.ok.inj hd ▸ h
  | addClbitRegister name size =>
    obtain ⟨⟨e, ids⟩, he, rfl⟩ := map_eq_ok.mp hd
    exact addClbitRegister_eq_growClbits he ▸ h
  | append i => exact h.append (hop i rfl) hd
  | apply gate params qubits => exact h.apply hd
  | gate g qubits => exact h.append (fun _ => rfl) hd
  | measure q b => exact h.append (fun hm => by cases hm) hd
  | measureAll => exact h.measureAll hd
  | reset q => exact h.append (fun _ => rfl) hd
  | barrier qubits => exact h.append (fun _ => rfl) hd
  | barrierAll => exact h.append (fun _ => rfl) hd
  | addPhase x => exact Except.ok.inj hd ▸ h
  | bind values => exact Except.ok.inj hd ▸ h.bind values

/-! ### Runs of operations -/

/-- What every successful operation keeps holds after any operations. -/
theorem after_induction {P : Circuit α → Prop} (ops : List (Operation α))
    (hstep : ∀ op ∈ ops, ∀ c d, P c → c.perform op = .ok d → P d) (hc : P c) :
    P (c.after ops) := by
  induction ops generalizing c with
  | nil => exact hc
  | cons op rest ih =>
    obtain ⟨hop, hrest⟩ := List.forall_mem_cons.mp hstep
    refine ih hrest ?_
    unfold step
    split
    · rename_i d hd
      exact hop c d hc hd
    · exact hc

/-- The circuit is proper after any operations. Classical bits lie at measurements only, unless
other instructions are appended with such bits. -/
theorem proper_after (name : String) (ops : List (Operation α)) :
    ((new name : Circuit α).after ops).Proper ∧
      ((∀ i, .append i ∈ ops → i.isMeasure = false → i.clbits = []) →
        ((new name : Circuit α).after ops).Plain) := by
  constructor
  · have hbuilt : ((new name : Circuit α).after ops).Built :=
      after_induction ops (fun op _ c d hc hd => hc.perform hd) (.new name)
    exact hbuilt.filed.proper hbuilt.wellFormed
  · intro happended
    refine after_induction ops (fun op hop c d hc hd => ?_) (plain_new name)
    exact hc.perform (fun i hi => happended i (hi ▸ hop)) hd

end Circuit

end KetSim

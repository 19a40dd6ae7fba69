import Mathlib
import KetSim.Lowering.Observable
import KetSim.Proofs.Lowering.Layout
import KetSim.Proofs.Outcome

/-! # Operators without a circuit

An operator that is lowered for a number of qubits alone meets one register in the
order of the numbers, while one that is lowered for a circuit meets its registers
in the order of declaration. The two observables agree for the operators on qubits
whose position is their number, so they agree for all operators on a circuit whose
registers list the qubits by number, and on no other.
-/
namespace KetSim

variable {α : Type}

/-! ## Layouts that agree on some qubits -/

namespace QubitLayout

variable {layout layout' : QubitLayout}

theorem factors_congr {ops : List (QubitId × Pauli)}
    (h : ∀ f ∈ ops, f.2 ≠ .i → layout.index f.1 = layout'.index f.1) :
    layout.factors ops = layout'.factors ops := by
  induction ops with
  | nil => rfl
  | cons f rest ih =>
    obtain ⟨hf, hrest⟩ := List.forall_mem_cons.mp h
    obtain ⟨q, p⟩ := f
    rw [factors, factors, ih hrest]
    cases p with
    | i => rfl
    | x | y | z => rw [hf Pauli.noConfusion]

theorem foldlM_addTerm_congr {terms : List (PauliString × α)}
    (h : ∀ term ∈ terms, ∀ f ∈ term.1.ops, f.2 ≠ .i → layout.index f.1 = layout'.index f.1)
    (start : Engine.Observable α) :
    terms.foldlM layout.addTerm start = terms.foldlM layout'.addTerm start := by
  induction terms generalizing start with
  | nil => rfl
  | cons term rest ih =>
    obtain ⟨hterm, hrest⟩ := List.forall_mem_cons.mp h
    rw [List.foldlM_cons, List.foldlM_cons, addTerm, addTerm, factors_congr hterm]
    exact bind_congr fun o => ih hrest o

theorem observable_congr (hn : layout.numQubits = layout'.numQubits) {op : PauliOperator α}
    (h : ∀ term ∈ op.terms, ∀ f ∈ term.1.ops, f.2 ≠ .i → layout.index f.1 = layout'.index f.1) :
    layout.observable op = layout'.observable op := by
  rw [observable, observable, hn, foldlM_addTerm_congr h]

/-- An operator of one factor shows the index of its qubit. -/
theorem observable_single {q : QubitId} {i : ℕ} (hi : layout.index q = .ok i)
    (hlt : i < layout.numQubits) (coeff : α) :
    layout.observable ⟨[(⟨[(q, .z)]⟩, coeff)]⟩ =
      .ok ⟨layout.numQubits, [⟨coeff, [(i, .z)]⟩]⟩ := by
  have hfactors : layout.factors [(q, .z)] = .ok [(i, .z)] := by
    simp only [factors, Pauli.axis?, hi]
    rfl
  have hcheck : Engine.checkDistinct "pauli" layout.numQubits [] [i] = .ok () := by
    simp [Engine.checkDistinct, not_le.mpr hlt]
  have hadd : (Engine.Observable.empty layout.numQubits).add coeff [(i, .z)] =
      .ok ⟨layout.numQubits, [⟨coeff, [(i, .z)]⟩]⟩ := bind_unit_eq_ok.mpr ⟨hcheck, rfl⟩
  rw [observable, List.foldlM_cons]
  exact bind_eq_ok.mpr ⟨_, bind_eq_ok.mpr ⟨_, hfactors, mapError_eq_ok.mpr hadd⟩, rfl⟩

end QubitLayout

/-! ## Layouts of circuits -/

theorem Numbering.place_inj (numbering : Numbering) {n p q : ℕ} (hp : p < n) (hq : q < n)
    (h : numbering.place n p = numbering.place n q) : p = q := by
  unfold place at h
  split at h <;> omega

theorem Numbering.place_lt (numbering : Numbering) {n p : ℕ} (hp : p < n) :
    numbering.place n p < n := by
  unfold place
  split <;> omega

theorem getElem?_eq_some_iff_idxOf {β : Type} [DecidableEq β] {xs : List β} (h : xs.Nodup) {x : β}
    {k : ℕ} : xs[k]? = some x ↔ x ∈ xs ∧ xs.idxOf x = k := by
  constructor
  · intro hget
    obtain ⟨hk, rfl⟩ := List.getElem?_eq_some_iff.mp hget
    exact ⟨List.getElem_mem hk, h.idxOf_getElem k hk⟩
  · rintro ⟨hx, rfl⟩
    exact List.getElem?_idxOf hx

/-- The last position below `n` that comes to the number of the qubit when it is cut to a word. -/
def QubitId.lastPosition (n : ℕ) (q : QubitId) : ℕ :=
  q.index + wireLimit * ((n - 1 - q.index) / wireLimit)

namespace QubitId

variable {n : ℕ} {q : QubitId}

theorem lastPosition_lt (hq : q.index < n) : q.lastPosition n < n := by
  have hle := Nat.mul_div_le (n - 1 - q.index) wireLimit
  rw [lastPosition]
  omega

theorem ofPosition_lastPosition (n : ℕ) (hq : q.index < wireLimit) :
    ofPosition (q.lastPosition n) = q := by
  cases q
  rw [ofPosition, lastPosition, Nat.add_mul_mod_self_left, Nat.mod_eq_of_lt hq]

theorem le_lastPosition {j : ℕ} (hj : j < n) : j ≤ (ofPosition j).lastPosition n := by
  have hsplit := Nat.mod_add_div j wireLimit
  have hrounds : j / wireLimit ≤ (n - 1 - j % wireLimit) / wireLimit := by
    rw [Nat.le_div_iff_mul_le (by decide), mul_comm]
    omega
  have hle := Nat.mul_le_mul_left wireLimit hrounds
  simp only [lastPosition, ofPosition]
  omega

/-- As long as the positions are words, the number of a qubit is its only position. -/
theorem lastPosition_of_le (hn : n ≤ wireLimit) (hq : q.index < n) :
    q.lastPosition n = q.index := by
  rw [lastPosition, Nat.div_eq_of_lt (by omega), mul_zero, add_zero]

end QubitId

namespace QubitLayout

theorem getElem?_linear {n j : ℕ} {q : QubitId} :
    ((List.range n).map QubitId.ofPosition)[j]? = some q ↔ j < n ∧ QubitId.ofPosition j = q := by
  simp [List.getElem?_map, List.getElem?_eq_some_iff]

/-- The qubit of a number has the index of the last position that comes to the number. -/
theorem index_linear (numbering : Numbering) {n : ℕ} {q : QubitId} (hq : q.index < n)
    (hword : q.index < wireLimit) :
    (linear numbering n).index q = .ok (numbering.place n (q.lastPosition n)) := by
  refine index_ofOrder_of_last (getElem?_linear.mpr ⟨QubitId.lastPosition_lt hq, ?_⟩) ?_
  · exact QubitId.ofPosition_lastPosition n hword
  · intro j hj
    obtain ⟨hlt, rfl⟩ := getElem?_linear.mp hj
    exact QubitId.le_lastPosition hlt

theorem index_linear_of_le (numbering : Numbering) {n : ℕ} {q : QubitId}
    (hq : min n wireLimit ≤ q.index) :
    (linear numbering n).index q = .error (.qubitOutOfRange q n) := by
  refine index_ofOrder_of_notMem fun hmem => ?_
  obtain ⟨k, hk, rfl⟩ := List.mem_map.mp hmem
  have hle := Nat.mod_le k wireLimit
  have hlt := Nat.mod_lt k (show 0 < wireLimit by decide)
  rw [List.mem_range] at hk
  simp only [QubitId.ofPosition] at hq
  omega

/-- As long as the positions are words, a qubit has the index of its number. -/
theorem index_linear_of_words (numbering : Numbering) {n : ℕ} (hn : n ≤ wireLimit) {q : QubitId}
    (hq : q.index < n) : (linear numbering n).index q = .ok (numbering.place n q.index) := by
  rw [index_linear numbering hq (by omega), QubitId.lastPosition_of_le hn hq]

end QubitLayout

namespace Circuit

variable {c : Circuit α}

/-- The two layouts agree on a qubit unless it is declared and its position is not its number. -/
theorem WellFormed.index_linear_iff (h : c.WellFormed) (hn : c.numQubits ≤ wireLimit)
    (numbering : Numbering) (q : QubitId) :
    (QubitLayout.linear numbering c.numQubits).index q =
        (QubitLayout.ofCircuit numbering c).index q ↔
      (q.index < c.numQubits → c.order[q.index]? = some q) := by
  by_cases hq : q.index < c.numQubits
  · rw [QubitLayout.index_linear_of_words numbering hn hq, h.index_ofCircuit numbering hq,
      Except.ok.injEq, getElem?_eq_some_iff_idxOf h.nodup_order]
    constructor
    · exact fun hplace _ =>
        ⟨h.mem_order.mpr hq, (numbering.place_inj hq (h.idxOf_lt hq) hplace).symm⟩
    · exact fun hself => by rw [(hself hq).2]
  · rw [QubitLayout.index_linear_of_le numbering (by omega), h.index_eq_error hq]
    exact iff_of_true rfl fun hlt => absurd hlt hq

theorem WellFormed.order_eq_iff (h : c.WellFormed) :
    c.order = (List.range c.numQubits).map QubitId.mk ↔
      ∀ q : QubitId, q.index < c.numQubits → c.order[q.index]? = some q := by
  constructor
  · intro horder q hq
    simp [horder, hq]
  · intro hself
    apply List.ext_getElem?
    intro k
    by_cases hk : k < c.numQubits
    · rw [hself ⟨k⟩ hk]
      simp [hk]
    · rw [List.getElem?_eq_none (h.length_order.trans_le (not_lt.mp hk)), List.getElem?_eq_none]
      simpa using hk

variable [Zero α] [Add α]

/-- For the number of qubits alone an operator is lowered as for the circuit if the position of
each of its qubits is its number. This holds of all operators, and the layouts agree on all qubits,
exactly if the registers list the qubits by number. The numbers of the qubits are words. -/
theorem Built.observable_linear_iff (h : c.Built) (hn : c.numQubits ≤ wireLimit)
    (numbering : Numbering) :
    (∀ op : PauliOperator α,
      (∀ term ∈ op.terms, ∀ f ∈ term.1.ops, f.2 ≠ .i → f.1.index < c.numQubits →
        c.order[f.1.index]? = some f.1) →
      op.observable numbering c.numQubits = (QubitLayout.ofCircuit numbering c).observable op) ∧
    ((∀ op : PauliOperator α,
        op.observable numbering c.numQubits = (QubitLayout.ofCircuit numbering c).observable op) ↔
      c.order = (List.range c.numQubits).map QubitId.mk) ∧
    ((∀ q, (QubitLayout.linear numbering c.numQubits).index q =
        (QubitLayout.ofCircuit numbering c).index q) ↔
      c.order = (List.range c.numQubits).map QubitId.mk) := by
  have hw := h.wellFormed
  have hcongr (op : PauliOperator α)
      (hop : ∀ term ∈ op.terms, ∀ f ∈ term.1.ops, f.2 ≠ .i → f.1.index < c.numQubits →
        c.order[f.1.index]? = some f.1) :
      op.observable numbering c.numQubits = (QubitLayout.ofCircuit numbering c).observable op := by
    refine QubitLayout.observable_congr ?_ fun term hterm f hf hi => ?_
    · rfl
    · exact (hw.index_linear_iff hn numbering f.1).mpr (hop term hterm f hf hi)
  refine ⟨hcongr, ⟨fun hall => ?_, fun horder op => ?_⟩, ?_⟩
  · -- the operators of one factor show the index of every declared qubit
    refine hw.order_eq_iff.mpr fun q hq => (hw.index_linear_iff hn numbering q).mp ?_ hq
    have hlinear := QubitLayout.index_linear_of_words numbering hn hq
    have hindex := hw.index_ofCircuit numbering hq
    have hsingle := hall ⟨[(⟨[(q, .z)]⟩, 0)]⟩
    rw [PauliOperator.observable, QubitLayout.observable_single hlinear (numbering.place_lt hq),
      QubitLayout.observable_single hindex (numbering.place_lt (hw.idxOf_lt hq))] at hsingle
    simp only [Except.ok.injEq, Engine.Observable.mk.injEq, List.cons.injEq,
      Engine.Term.mk.injEq, Prod.mk.injEq, and_true, true_and] at hsingle
    rw [hlinear, hindex, hsingle.2]
  · exact hcongr op fun _ _ f _ _ hf => hw.order_eq_iff.mp horder f.1 hf
  · rw [hw.order_eq_iff]
    exact forall_congr' fun q => hw.index_linear_iff hn numbering q

/-- A register that is declared after the first qubit leaves the numbers in order. -/
theorem observable_linear_iff_row :
    ∃ (c : Circuit ℤ) (ids : List QubitId),
      (withSize "row" 1 0).addQubitRegister "a" 1 = .ok (c, ids) ∧ c.Built ∧
      ∀ (numbering : Numbering) (op : PauliOperator ℤ),
        op.observable numbering 2 = (QubitLayout.ofCircuit numbering c).observable op := by
  have hregister : (withSize "row" 1 0 : Circuit ℤ).addQubitRegister "a" 1 = .ok (_, _) := rfl
  have hbuilt : Built (α := ℤ) _ := .addQubitRegister (.withSize "row" 1 0) hregister
  exact ⟨_, _, hregister, hbuilt, fun numbering =>
    (hbuilt.observable_linear_iff (by decide) numbering).2.1.mpr rfl⟩

/-- A qubit that joins the default register after another register was declared: the two
observables of `Z` on qubit `1` differ in both numberings. -/
theorem observable_linear_ne_grown :
    ∃ (c d : Circuit ℤ) (ids : List QubitId),
      (withSize "grown" 1 0).addQubitRegister "a" 1 = .ok (c, ids) ∧ d = c.addQubit.1 ∧ d.Built ∧
      ∀ numbering : Numbering,
        (⟨[(⟨[(⟨1⟩, .z)]⟩, 1)]⟩ : PauliOperator ℤ).observable numbering d.numQubits ≠
          (QubitLayout.ofCircuit numbering d).observable ⟨[(⟨[(⟨1⟩, .z)]⟩, 1)]⟩ := by
  have hregister : (withSize "grown" 1 0 : Circuit ℤ).addQubitRegister "a" 1 = .ok (_, _) := rfl
  have hbuilt := Built.addQubits (.addQubitRegister (.withSize "grown" 1 0) hregister) 1
  refine ⟨_, _, _, hregister, rfl, hbuilt, ?_⟩
  rintro ⟨mirrored⟩ hsame
  cases mirrored with
  | false =>
    have hterms : (.ok ⟨3, [⟨1, [(1, .z)]⟩]⟩ : Except LoweringError (Engine.Observable ℤ)) =
        .ok ⟨3, [⟨1, [(2, .z)]⟩]⟩ := hsame
    simp at hterms
  | true =>
    have hterms : (.ok ⟨3, [⟨1, [(1, .z)]⟩]⟩ : Except LoweringError (Engine.Observable ℤ)) =
        .ok ⟨3, [⟨1, [(0, .z)]⟩]⟩ := hsame
    simp at hterms

end Circuit

end KetSim

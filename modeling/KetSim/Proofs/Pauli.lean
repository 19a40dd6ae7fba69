import Mathlib
import KetSim.Pauli

/-! # Pauli strings

A string is made from any list of factors by keeping the last factor of each qubit.
What is left lists the factors other than the identity by ascending qubit, so strings
are equal exactly if they are the same product, and the last qubit is the largest.
-/
namespace KetSim.PauliString

/-! ## Listed factors -/

/-- The factor that a list names last for a qubit, or the identity if it names none. -/
def lastFactor (ops : List (QubitId × Pauli)) (q : QubitId) : Pauli :=
  ((ops.filter (·.1 = q)).getLast?.map (·.2)).getD .i

theorem lastFactor_append_singleton (ops : List (QubitId × Pauli)) (op : QubitId × Pauli)
    (q : QubitId) :
    lastFactor (ops ++ [op]) q = if op.1 = q then op.2 else lastFactor ops q := by
  unfold lastFactor
  rw [List.filter_append]
  by_cases hq : op.1 = q
  · simp [hq]
  · simp [hq]

theorem mem_assign {ops : List (QubitId × Pauli)} {op factor : QubitId × Pauli} :
    factor ∈ assign ops op ↔ factor ∈ ops ∧ factor.1 ≠ op.1 ∨ factor = op ∧ op.2 ≠ .i := by
  unfold assign
  by_cases hi : op.2 = .i
  · simp [hi]
  · simp [hi]

theorem nodup_assign {ops : List (QubitId × Pauli)} (h : (ops.map (·.1)).Nodup)
    (op : QubitId × Pauli) : ((assign ops op).map (·.1)).Nodup := by
  have hothers : ((ops.filter (·.1 ≠ op.1)).map (·.1)).Nodup :=
    h.sublist (List.filter_sublist.map _)
  unfold assign
  split
  · exact hothers
  · rw [List.map_append, List.nodup_append]
    refine ⟨hothers, List.nodup_singleton _, fun q hq q' hq' => ?_⟩
    obtain ⟨other, hother, rfl⟩ := List.mem_map.mp hq
    obtain rfl := List.mem_singleton.mp hq'
    simpa using (List.mem_filter.mp hother).2

/-- The loop over the factors leaves each qubit once. -/
theorem nodup_foldl_assign (ops : List (QubitId × Pauli)) :
    ((ops.foldl assign []).map (·.1)).Nodup := by
  induction ops using List.reverseRecOn with
  | nil => exact List.nodup_nil
  | append_singleton ops op ih =>
    rw [List.foldl_append]
    exact nodup_assign ih op

/-- The loop changes nothing if the qubits differ and no factor is the identity. -/
theorem foldl_assign_eq_self {ops : List (QubitId × Pauli)} (hn : (ops.map (·.1)).Nodup)
    (hp : ∀ op ∈ ops, op.2 ≠ .i) : ops.foldl assign [] = ops := by
  induction ops using List.reverseRecOn with
  | nil => rfl
  | append_singleton ops op ih =>
    rw [List.map_append, List.nodup_append] at hn
    obtain ⟨hops, -, hdiffer⟩ := hn
    have hothers : ops.filter (·.1 ≠ op.1) = ops := by
      apply List.filter_eq_self.mpr
      intro other hother
      have hne : other.1 ≠ op.1 :=
        hdiffer _ (List.mem_map_of_mem hother) _ (List.mem_singleton_self _)
      simpa using hne
    have hproper : op.2 ≠ .i := hp op (List.mem_append_right _ (List.mem_singleton_self op))
    rw [List.foldl_append, ih hops fun other hother => hp other (List.mem_append_left _ hother),
      List.foldl_cons, List.foldl_nil, assign, if_neg hproper, hothers]

/-- The loop over the factors leaves the last ones other than the identity. -/
theorem mem_foldl_assign {ops : List (QubitId × Pauli)} {q : QubitId} {a : Pauli} :
    (q, a) ∈ ops.foldl assign [] ↔ a ≠ .i ∧ lastFactor ops q = a := by
  induction ops using List.reverseRecOn with
  | nil =>
    have hnone : lastFactor [] q = .i := rfl
    rw [hnone]
    simp [eq_comm]
  | append_singleton ops op ih =>
    obtain ⟨q', a'⟩ := op
    rw [List.foldl_append, List.foldl_cons, List.foldl_nil, mem_assign, ih,
      lastFactor_append_singleton]
    by_cases hq : q' = q
    · subst hq
      simp only [ne_eq, not_true_eq_false, and_false, false_or, if_true, Prod.mk.injEq, true_and]
      constructor
      · rintro ⟨rfl, ha⟩
        exact ⟨ha, rfl⟩
      · rintro ⟨ha, rfl⟩
        exact ⟨rfl, ha⟩
    · simp [hq, Ne.symm hq]

theorem mem_ofOps {ops : List (QubitId × Pauli)} {q : QubitId} {a : Pauli} :
    (q, a) ∈ (ofOps ops).ops ↔ a ≠ .i ∧ lastFactor ops q = a := by
  rw [ofOps, List.mem_mergeSort, mem_foldl_assign]

/-! ## Canonical strings -/

/-- A string that lists factors other than the identity by ascending qubit. -/
structure Canonical (p : PauliString) : Prop where
  ascending : p.ops.Pairwise (fun a b => a.1.index < b.1.index)
  proper : ∀ op ∈ p.ops, op.2 ≠ .i

theorem canonical_ofOps (ops : List (QubitId × Pauli)) : (ofOps ops).Canonical where
  ascending := by
    have hsorted : (ofOps ops).ops.Pairwise (fun a b => decide (a.1.index ≤ b.1.index)) := by
      apply List.pairwise_mergeSort
      · intro a b c hab hbc
        simp only [decide_eq_true_eq] at hab hbc ⊢
        exact hab.trans hbc
      · intro a b
        simpa using le_total a.1.index b.1.index
    have hperm : (ofOps ops).ops.Perm (ops.foldl assign []) := List.mergeSort_perm _ _
    have hnodup : ((ofOps ops).ops.map (·.1)).Nodup :=
      (hperm.map _).nodup_iff.mpr (nodup_foldl_assign ops)
    apply (hsorted.and (List.pairwise_map.mp hnodup)).imp
    rintro a b ⟨hle, hne⟩
    have hindex : a.1.index ≠ b.1.index := fun heq => hne (congrArg QubitId.mk heq)
    exact lt_of_le_of_ne (of_decide_eq_true hle) hindex
  proper := by
    rintro ⟨q, a⟩ hmem
    exact (mem_ofOps.mp hmem).1

/-- The factor of a qubit in a string. -/
def factor (p : PauliString) (q : QubitId) : Pauli :=
  ((p.ops.find? (·.1 = q)).map (·.2)).getD .i

namespace Canonical

variable {p p' : PauliString}

theorem nodup (h : p.Canonical) : (p.ops.map (·.1)).Nodup := by
  apply List.pairwise_map.mpr
  apply h.ascending.imp
  rintro a b hlt heq
  exact hlt.ne (congrArg QubitId.index heq)

theorem mem_ops_iff (h : p.Canonical) {q : QubitId} {a : Pauli} :
    (q, a) ∈ p.ops ↔ a ≠ .i ∧ p.factor q = a := by
  unfold factor
  cases hfind : p.ops.find? (·.1 = q) with
  | none =>
    have habsent : ∀ op ∈ p.ops, op.1 ≠ q := by simpa using hfind
    constructor
    · intro hmem
      exact absurd rfl (habsent _ hmem)
    · rintro ⟨ha, rfl⟩
      exact absurd rfl ha
  | some op =>
    have hop := List.mem_of_find?_eq_some hfind
    have hq : op.1 = q := by simpa using List.find?_some hfind
    constructor
    · intro hmem
      have heq := List.inj_on_of_nodup_map h.nodup hop hmem hq
      exact ⟨h.proper _ hmem, congrArg Prod.snd heq⟩
    · rintro ⟨-, rfl⟩
      rwa [← hq]

theorem factor_ne_iff (h : p.Canonical) {q : QubitId} :
    p.factor q ≠ .i ↔ ∃ a, (q, a) ∈ p.ops := by
  constructor
  · intro hne
    exact ⟨_, h.mem_ops_iff.mpr ⟨hne, rfl⟩⟩
  · rintro ⟨a, hmem⟩
    obtain ⟨ha, rfl⟩ := h.mem_ops_iff.mp hmem
    exact ha

/-- Strings with the same factors are equal. -/
theorem ext (h : p.Canonical) (h' : p'.Canonical) (hf : p.factor = p'.factor) : p = p' := by
  obtain ⟨ops⟩ := p
  obtain ⟨ops'⟩ := p'
  congr 1
  apply h.ascending.eq_of_mem_iff h'.ascending
  rintro ⟨q, a⟩
  rw [h.mem_ops_iff, h'.mem_ops_iff, hf]

/-- A string that is made again from its own factors stays the same. -/
theorem ofOps_ops (h : p.Canonical) : ofOps p.ops = p := by
  have hsorted : p.ops.Pairwise (fun a b => decide (a.1.index ≤ b.1.index)) :=
    h.ascending.imp fun hlt => decide_eq_true hlt.le
  rw [ofOps, foldl_assign_eq_self h.nodup h.proper, List.mergeSort_of_pairwise hsorted]

theorem maxQubit?_eq_none_iff (h : p.Canonical) :
    p.maxQubit? = none ↔ ∀ q, p.factor q = .i := by
  rw [maxQubit?, Option.map_eq_none_iff, List.getLast?_eq_none_iff]
  constructor
  · intro hnil q
    rw [factor, hnil]
    rfl
  · intro hf
    apply List.eq_nil_iff_forall_not_mem.mpr
    rintro ⟨q, a⟩ hmem
    exact h.factor_ne_iff.mpr ⟨a, hmem⟩ (hf q)

/-- The last listed qubit is the largest one with a factor other than the identity. -/
theorem maxQubit?_eq_some_iff (h : p.Canonical) {q : QubitId} :
    p.maxQubit? = some q ↔
      p.factor q ≠ .i ∧ ∀ q', p.factor q' ≠ .i → q'.index ≤ q.index := by
  -- The last factor is the largest, and only one qubit is.
  have hlast {q : QubitId} (hq : p.maxQubit? = some q) :
      p.factor q ≠ .i ∧ ∀ q', p.factor q' ≠ .i → q'.index ≤ q.index := by
    obtain ⟨op, hop, rfl⟩ := Option.map_eq_some_iff.mp hq
    obtain ⟨before, hbefore⟩ := List.getLast?_eq_some_iff.mp hop
    have hascending := h.ascending
    rw [hbefore, List.pairwise_append] at hascending
    obtain ⟨-, -, hbelow⟩ := hascending
    have hmem : op ∈ p.ops := hbefore ▸ List.mem_append_right _ (List.mem_singleton_self op)
    refine ⟨h.factor_ne_iff.mpr ⟨op.2, hmem⟩, fun q' hq' => ?_⟩
    obtain ⟨a, ha⟩ := h.factor_ne_iff.mp hq'
    rw [hbefore, List.mem_append, List.mem_singleton] at ha
    rcases ha with ha | rfl
    · exact (hbelow _ ha op (List.mem_singleton_self op)).le
    · exact le_rfl
  constructor
  · exact hlast
  · rintro ⟨hq, hlargest⟩
    cases hmax : p.maxQubit? with
    | none => exact absurd (h.maxQubit?_eq_none_iff.mp hmax q) hq
    | some top =>
      obtain ⟨htop, hle⟩ := hlast hmax
      have hindex : top.index = q.index := (hlargest top htop).antisymm (hle q hq)
      exact congrArg some (congrArg QubitId.mk hindex)

end Canonical

/-! ## Strings from lists -/

/-- A string from a list has the factors that the list names last. -/
theorem factor_ofOps (ops : List (QubitId × Pauli)) : (ofOps ops).factor = lastFactor ops := by
  funext q
  have hboth (a : Pauli) : a ≠ .i ∧ (ofOps ops).factor q = a ↔ a ≠ .i ∧ lastFactor ops q = a :=
    (canonical_ofOps ops).mem_ops_iff.symm.trans mem_ofOps
  by_cases hq : lastFactor ops q = .i
  · by_contra hne
    obtain ⟨-, hlast⟩ := (hboth _).mp ⟨fun hi => hne (hi.trans hq.symm), rfl⟩
    exact hne hlast.symm
  · exact ((hboth _).mpr ⟨hq, rfl⟩).2

/-- Strings from lists are canonical: a string lists the last factor of each qubit, unless that is
the identity, by ascending qubit. Lists with the same last factors, and only those, make the same
string, a string makes itself again, and its largest qubit is the largest one on which it is not the
identity. -/
theorem ofOps_normalizes (ops ops' : List (QubitId × Pauli)) :
    (ofOps ops).Canonical ∧
    (ofOps ops).factor = lastFactor ops ∧
    (lastFactor ops = lastFactor ops' ↔ ofOps ops = ofOps ops') ∧
    ofOps (ofOps ops).ops = ofOps ops ∧
    (∀ q, (ofOps ops).maxQubit? = some q ↔
      lastFactor ops q ≠ .i ∧ ∀ q', lastFactor ops q' ≠ .i → q'.index ≤ q.index) ∧
    ((ofOps ops).maxQubit? = none ↔ ∀ q, lastFactor ops q = .i) := by
  have h := canonical_ofOps ops
  have hf := factor_ofOps ops
  refine ⟨h, hf, ⟨fun heq => ?_, fun heq => ?_⟩, h.ofOps_ops, fun q => ?_, ?_⟩
  · apply h.ext (canonical_ofOps ops')
    rw [hf, heq, factor_ofOps]
  · rw [← hf, heq, factor_ofOps]
  · rw [h.maxQubit?_eq_some_iff, hf]
  · rw [h.maxQubit?_eq_none_iff, hf]

/-- A repeated qubit keeps its last factor, and an identity that is listed last erases the one
before. -/
example : ofOps [(⟨2⟩, .x), (⟨0⟩, .y), (⟨1⟩, .x), (⟨1⟩, .z), (⟨0⟩, .i)] =
    ⟨[(⟨1⟩, .z), (⟨2⟩, .x)]⟩ := by
  cbv

end KetSim.PauliString

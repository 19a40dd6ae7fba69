import Mathlib
import KetSim.Lowering.Layout
import KetSim.Proofs.Circuit.Built
import KetSim.Proofs.Circuit.Meaning
import KetSim.Proofs.Lookup

/-! # The layout of a well-formed circuit

The registers list every declared qubit once, so the layout is a bijection from
the declared qubits onto the engine indices. With the other qubits kept at their
own numbers it is a bijection from all qubits onto all bit positions.
-/
namespace KetSim

/-! ## Indices -/

namespace QubitLayout

variable {numbering : Numbering} {n : ℕ} {order : List QubitId}

theorem map_fst_ofOrder : (ofOrder numbering n order).entries.map Prod.fst = order := by
  rw [ofOrder, List.map_map]
  exact List.zipIdx_map_fst 0 order

theorem entries_ofOrder_concat (p : QubitId) :
    (ofOrder numbering n (order ++ [p])).entries =
      (ofOrder numbering n order).entries ++ [(p, numbering.place n order.length)] := by
  simp [ofOrder, List.zipIdx_append]

/-- A qubit that is listed more than once has the index of its last position. -/
theorem lookup_ofOrder_of_last {q : QubitId} {k : ℕ} (hk : order[k]? = some q)
    (hlast : ∀ j, order[j]? = some q → j ≤ k) :
    (ofOrder numbering n order).entries.reverse.lookup q = some (numbering.place n k) := by
  -- the entries are read from the end
  induction order using List.reverseRecOn with
  | nil => simp at hk
  | append_singleton order p ih =>
    rw [entries_ofOrder_concat, List.reverse_concat, lookup_cons_ite]
    have hlt := (List.getElem?_eq_some_iff.mp hk).1
    rw [List.length_append, List.length_singleton] at hlt
    by_cases hq : q = p
    · have hle := hlast order.length (by simp [hq])
      rw [if_pos hq, show k = order.length by omega]
    · have hne : k ≠ order.length := by
        rintro rfl
        simp [Ne.symm hq] at hk
      rw [if_neg hq]
      apply ih
      · rwa [List.getElem?_append_left (by omega)] at hk
      · intro j hj
        have hjlt := (List.getElem?_eq_some_iff.mp hj).1
        exact hlast j (by rwa [List.getElem?_append_left hjlt])

theorem index_ofOrder_of_last {q : QubitId} {k : ℕ} (hk : order[k]? = some q)
    (hlast : ∀ j, order[j]? = some q → j ≤ k) :
    (ofOrder numbering n order).index q = .ok (numbering.place n k) := by
  rw [index, lookup_ofOrder_of_last hk hlast]

theorem index_ofOrder (hn : order.Nodup) {q : QubitId} (hq : q ∈ order) :
    (ofOrder numbering n order).index q = .ok (numbering.place n (order.idxOf q)) := by
  refine index_ofOrder_of_last (List.getElem?_idxOf hq) fun j hj => ?_
  obtain ⟨hlt, rfl⟩ := List.getElem?_eq_some_iff.mp hj
  rw [hn.idxOf_getElem]

theorem index_ofOrder_of_notMem {q : QubitId} (hq : q ∉ order) :
    (ofOrder numbering n order).index q = .error (.qubitOutOfRange q n) := by
  have hnone : (ofOrder numbering n order).entries.reverse.lookup q = none := by
    rw [lookup_eq_none, List.map_reverse, List.mem_reverse, map_fst_ofOrder]
    exact hq
  rw [index, hnone]
  rfl

end QubitLayout

/-! ## Positions -/

namespace Circuit

variable {α : Type}

/-- The engine index of a qubit on the mirrored layout; qubits that are not declared keep their
number. -/
def place (c : Circuit α) (q : QubitId) : ℕ :=
  if q.index < c.numQubits then c.numQubits - 1 - c.order.idxOf q else q.index

namespace WellFormed

variable {c : Circuit α}

theorem nodup_order (h : c.WellFormed) : c.order.Nodup := by
  rw [order, h.qubits.nodup_iff]
  exact List.nodup_range.map fun a b hab => QubitId.mk.inj hab

theorem mem_order (h : c.WellFormed) {q : QubitId} : q ∈ c.order ↔ q.index < c.numQubits := by
  rw [order, h.qubits.mem_iff, List.mem_map]
  constructor
  · rintro ⟨i, hi, rfl⟩
    exact List.mem_range.mp hi
  · intro hq
    exact ⟨q.index, List.mem_range.mpr hq, rfl⟩

theorem length_order (h : c.WellFormed) : c.order.length = c.numQubits := by
  rw [order, h.qubits.length_eq, List.length_map, List.length_range]

theorem idxOf_lt (h : c.WellFormed) {q : QubitId} (hq : q.index < c.numQubits) :
    c.order.idxOf q < c.numQubits := by
  rw [← h.length_order]
  exact List.idxOf_lt_length_of_mem (h.mem_order.mpr hq)

theorem place_lt (h : c.WellFormed) {q : QubitId} (hq : q.index < c.numQubits) :
    c.place q < c.numQubits := by
  have := h.idxOf_lt hq
  rw [place, if_pos hq]
  omega

theorem index_ofCircuit (h : c.WellFormed) (numbering : Numbering) {q : QubitId}
    (hq : q.index < c.numQubits) : (QubitLayout.ofCircuit numbering c).index q =
      .ok (numbering.place c.numQubits (c.order.idxOf q)) :=
  QubitLayout.index_ofOrder h.nodup_order (h.mem_order.mpr hq)

theorem index_eq (h : c.WellFormed) {q : QubitId} (hq : q.index < c.numQubits) :
    (QubitLayout.ofCircuit ⟨true⟩ c).index q = .ok (c.place q) := by
  rw [place, if_pos hq]
  exact h.index_ofCircuit ⟨true⟩ hq

theorem index_eq_error (h : c.WellFormed) {numbering : Numbering} {q : QubitId}
    (hq : ¬q.index < c.numQubits) :
    (QubitLayout.ofCircuit numbering c).index q = .error (.qubitOutOfRange q c.numQubits) :=
  QubitLayout.index_ofOrder_of_notMem (by rwa [← order, h.mem_order])

theorem place_injective (h : c.WellFormed) : Function.Injective c.place := by
  intro p q hpq
  by_cases hp : p.index < c.numQubits
  · by_cases hq : q.index < c.numQubits
    · have hip := h.idxOf_lt hp
      have hiq := h.idxOf_lt hq
      rw [place, place, if_pos hp, if_pos hq] at hpq
      exact (List.idxOf_inj (h.mem_order.mpr hp)).mp (by omega)
    · have hlt := h.place_lt hp
      rw [hpq, place, if_neg hq] at hlt
      exact absurd hlt hq
  · by_cases hq : q.index < c.numQubits
    · have hlt := h.place_lt hq
      rw [← hpq, place, if_neg hp] at hlt
      exact absurd hlt hp
    · rw [place, place, if_neg hp, if_neg hq] at hpq
      cases p
      cases q
      simpa using hpq

theorem place_surjective (h : c.WellFormed) : Function.Surjective c.place := by
  intro p
  by_cases hp : p < c.numQubits
  · have hlt : c.numQubits - 1 - p < c.order.length := by
      rw [h.length_order]
      omega
    refine ⟨c.order[c.numQubits - 1 - p], ?_⟩
    have hq : c.order[c.numQubits - 1 - p].index < c.numQubits :=
      h.mem_order.mp (List.getElem_mem hlt)
    rw [place, if_pos hq, h.nodup_order.idxOf_getElem]
    omega
  · exact ⟨⟨p⟩, if_neg hp⟩

/-- The bits of a basis index are those at the engine indices of the qubits. -/
theorem bitsOf_eq (h : c.WellFormed) {k : ℕ} (hk : k < 2 ^ c.numQubits) :
    c.bitsOf k = k.testBit ∘ c.place := by
  funext q
  rw [bitsOf, Function.comp_apply, place]
  by_cases hq : q.index < c.numQubits
  · simp [h.mem_order, hq]
  · have hbit := Ket.testBit_of_le hk (not_lt.mp hq)
    simp [h.mem_order, hq, hbit]

end WellFormed

end Circuit

end KetSim

import Mathlib
import KetSim.Proofs.Circuit.Acceptance
import KetSim.Proofs.Lowering.Linear

/-! # Offsets of registers

The engine index of a qubit is the number of qubits in the registers before its own
and its place there, or as many steps from the other end on a mirrored layout.
However the registers have grown, these are the indices of the register, each of one
qubit, so no place is counted back beyond the first one.
-/
namespace KetSim

/-! ## Checked subtractions -/

/-- A difference, unless it falls below zero. -/
def difference? (a b : ℕ) : Option ℕ := if b ≤ a then some (a - b) else none

namespace Numbering

variable (numbering : Numbering) {n p : ℕ}

/-- The index of a position, with both subtractions checked. -/
def place? (n position : ℕ) : Option ℕ :=
  if numbering.mirrored then do
    let last ← difference? n 1
    difference? last position
  else some position

theorem place?_eq (hp : p < n) : numbering.place? n p = some (numbering.place n p) := by
  unfold place? place
  split
  · have hn : 1 ≤ n := by omega
    have hlast : p ≤ n - 1 := by omega
    simp [difference?, hn, hlast]
  · rfl

theorem place_place (hp : p < n) : numbering.place n (numbering.place n p) = p := by
  unfold place
  split <;> omega

end Numbering

namespace QubitLayout

variable {numbering : Numbering}

/-- The entries of registers that lie behind as many qubits as the offset tells. -/
def entries? (numbering : Numbering) (n : ℕ) :
    ℕ → List QuantumRegister → Option (List (QubitId × ℕ))
  | _, [] => some []
  | offset, r :: rest => do
    let here ← r.qubits.zipIdx.mapM fun (q, i) => (numbering.place? n (offset + i)).map (q, ·)
    let others ← entries? numbering n (offset + r.size) rest
    some (here ++ others)

/-- The layout of a circuit by a running offset, with the subtractions checked. -/
def ofCircuit? {α : Type} (numbering : Numbering) (c : Circuit α) : Option QubitLayout :=
  (entries? numbering c.numQubits 0 c.qregs).map (⟨·, c.numQubits⟩)

/-- No subtraction fails for registers with room for all of their qubits. -/
theorem entries?_eq {n offset : ℕ} {regs : List QuantumRegister}
    (h : offset + (regs.flatMap (·.qubits)).length ≤ n) :
    entries? numbering n offset regs = some (((regs.flatMap (·.qubits)).zipIdx offset).map
      fun (q, position) => (q, numbering.place n position)) := by
  induction regs generalizing offset with
  | nil => rfl
  | cons r rest ih =>
    rw [List.flatMap_cons, List.length_append] at h
    have hhere : (r.qubits.zipIdx.mapM fun (q, i) =>
        (numbering.place? n (offset + i)).map (q, ·)) =
          some ((r.qubits.zipIdx offset).map fun (q, p) => (q, numbering.place n p)) := by
      rw [mapM_eq_some, List.zipIdx_eq_map_add (i := offset), List.map_map,
        List.forall₂_map_right_iff, List.forall₂_same]
      rintro ⟨q, i⟩ hmem
      have hi := List.snd_lt_add_of_mem_zipIdx hmem
      have hplace := numbering.place?_eq (show offset + i < n by omega)
      simp [hplace]
    rw [entries?, hhere, ih (by rw [QuantumRegister.size]; omega), List.flatMap_cons,
      List.zipIdx_append, List.map_append]
    rfl

end QubitLayout

/-! ## Qubits by their registers -/

/-- The place of a qubit in its register, behind the registers before it. -/
theorem QuantumRegister.getElem?_flatMap (before : List QuantumRegister) (r : QuantumRegister)
    (after : List QuantumRegister) {k : ℕ} (hk : k < r.qubits.length) :
    ((before ++ r :: after).flatMap (·.qubits))[(before.map (·.size)).sum + k]? = r.qubits[k]? := by
  have hlength : (before.flatMap (·.qubits)).length = (before.map (·.size)).sum :=
    List.length_flatMap
  rw [List.flatMap_append, ← hlength, List.getElem?_append_right (Nat.le_add_right _ _),
    Nat.add_sub_cancel_left, List.flatMap_cons, List.getElem?_append_left hk]

namespace Circuit

variable {α : Type} {c : Circuit α}

namespace WellFormed

theorem ofCircuit?_eq (h : c.WellFormed) (numbering : Numbering) :
    QubitLayout.ofCircuit? numbering c = some (QubitLayout.ofCircuit numbering c) := by
  have hlength : 0 + (c.qregs.flatMap (·.qubits)).length ≤ c.numQubits := by
    rw [zero_add]
    exact h.length_order.le
  rw [QubitLayout.ofCircuit?, QubitLayout.entries?_eq hlength]
  rfl

theorem index_eq_ok_iff (h : c.WellFormed) (numbering : Numbering) {q : QubitId} {p : ℕ} :
    (QubitLayout.ofCircuit numbering c).index q = .ok p ↔
      q.index < c.numQubits ∧ numbering.place c.numQubits (c.order.idxOf q) = p := by
  by_cases hq : q.index < c.numQubits
  · rw [h.index_ofCircuit numbering hq, Except.ok.injEq, and_iff_right hq]
  · rw [h.index_eq_error hq]
    exact iff_of_false (fun heq => by cases heq) fun hp => hq hp.1

/-- Every index of the register belongs to one qubit. -/
theorem existsUnique_index (h : c.WellFormed) (numbering : Numbering) {p : ℕ}
    (hp : p < c.numQubits) : ∃! q, (QubitLayout.ofCircuit numbering c).index q = .ok p := by
  have hposition : numbering.place c.numQubits p < c.order.length := by
    rw [h.length_order]
    exact numbering.place_lt hp
  refine ⟨c.order[numbering.place c.numQubits p], (h.index_eq_ok_iff numbering).mpr ⟨?_, ?_⟩, ?_⟩
  · exact h.mem_order.mp (List.getElem_mem hposition)
  · rw [h.nodup_order.idxOf_getElem, numbering.place_place hp]
  · intro q hq
    obtain ⟨hlt, hplace⟩ := (h.index_eq_ok_iff numbering).mp hq
    have hidx : c.order.idxOf q = numbering.place c.numQubits p := by
      rw [← hplace, numbering.place_place (h.idxOf_lt hlt)]
    have hget := List.getElem?_idxOf (h.mem_order.mpr hlt)
    rw [hidx, List.getElem?_eq_getElem hposition] at hget
    exact (Option.some.inj hget).symm

end WellFormed

/-- The position of a qubit is its offset and its place in the register that holds it. -/
theorem Filed.idxOf_eq (h : c.Filed) (hc : c.WellFormed) {q : Qubit} (hq : q ∈ c.qubits)
    {before after : List QuantumRegister} {r : QuantumRegister}
    (hregs : c.qregs = before ++ r :: after) (hr : q.id ∈ r.qubits) :
    r.name = q.register ∧ c.order.idxOf q.id = (before.map (·.size)).sum + q.index := by
  have hmem : r ∈ c.qregs := hregs ▸ List.mem_append_right before List.mem_cons_self
  obtain ⟨k, hk⟩ := List.mem_iff_getElem?.mp hr
  obtain ⟨hname, rfl⟩ := (h.position_iff hq hmem k).mp hk
  have hlt := (List.getElem?_eq_some_iff.mp hk).1
  have hget : c.order[(before.map (·.size)).sum + q.index]? = some q.id := by
    rw [order, hregs, QuantumRegister.getElem?_flatMap before r after hlt, hk]
  exact ⟨hname.symm, ((getElem?_eq_some_iff_idxOf hc.nodup_order).mp hget).2⟩

/-- In a circuit of no more than `2 ^ 32` qubits, whose numbers are words, every declared qubit
lies in a register, and its engine index is the number of qubits in the registers declared before
this one and its own index there, counted from the end on a mirrored layout. The subtractions that
this takes are never below zero. The layout is a bijection from the declared qubits onto the indices
below the number of qubits, and it fails for the others. -/
theorem Built.layout_follows_registers [Zero α] [Add α] (h : c.Built)
    (hwords : c.numQubits ≤ wireLimit) :
    (∀ k q, c.qubits[k]? = some q → q.id = ⟨k⟩ ∧ q.id = QubitId.ofPosition k ∧
      (∃ r ∈ c.qregs, ⟨k⟩ ∈ r.qubits) ∧
      ∀ before r after, c.qregs = before ++ r :: after → ⟨k⟩ ∈ r.qubits →
        r.name = q.register ∧
        (QubitLayout.ofCircuit ⟨false⟩ c).index ⟨k⟩ =
          .ok ((before.map (·.size)).sum + q.index) ∧
        (QubitLayout.ofCircuit ⟨true⟩ c).index ⟨k⟩ =
          .ok (c.numQubits - 1 - ((before.map (·.size)).sum + q.index))) ∧
    ∀ numbering : Numbering,
      QubitLayout.ofCircuit? numbering c = some (QubitLayout.ofCircuit numbering c) ∧
      (∀ q p, (QubitLayout.ofCircuit numbering c).index q = .ok p → p < c.numQubits) ∧
      (∀ p < c.numQubits, ∃! q, (QubitLayout.ofCircuit numbering c).index q = .ok p) ∧
      ∀ q, ((∃ w ∈ c.qubits, w.id = q) →
          ∃ p, (QubitLayout.ofCircuit numbering c).index q = .ok p) ∧
        (¬ (∃ w ∈ c.qubits, w.id = q) → (QubitLayout.ofCircuit numbering c).index q =
          .error (.qubitOutOfRange q c.numQubits)) := by
  have hw := h.wellFormed
  have hf := h.filed
  refine ⟨fun k q hk => ?_, fun numbering => ⟨hw.ofCircuit?_eq numbering, fun q p hp => ?_,
    fun p hp => hw.existsUnique_index numbering hp, fun q => ⟨fun hq => ?_, fun hq => ?_⟩⟩⟩
  · have hid : q.id = ⟨k⟩ := id_of_map_range hf.qubit_ids hk
    have hq := List.mem_of_getElem? hk
    have hlt := (hf.qubit_lt hq).1
    have hmem := hw.mem_order.mpr hlt
    have hword : QubitId.ofPosition k = ⟨k⟩ := by
      rw [hid] at hlt
      rw [QubitId.ofPosition, Nat.mod_eq_of_lt (hlt.trans_le hwords)]
    rw [hword, ← hid]
    refine ⟨rfl, rfl, List.mem_flatMap.mp hmem, fun before r after hregs hr => ?_⟩
    obtain ⟨hname, hposition⟩ := hf.idxOf_eq hw hq hregs hr
    exact ⟨hname, by rw [hw.index_ofCircuit _ hlt, hposition]; rfl,
      by rw [hw.index_ofCircuit _ hlt, hposition]; rfl⟩
  · obtain ⟨hlt, rfl⟩ := (hw.index_eq_ok_iff numbering).mp hp
    exact numbering.place_lt (hw.idxOf_lt hlt)
  · exact ⟨_, hw.index_ofCircuit numbering ((h.indexed.declared_qubit_iff q).mp hq)⟩
  · exact hw.index_eq_error ((h.indexed.declared_qubit_iff q).not.mp hq)

/-- The default register has grown behind an empty register and one of two qubits: the last qubit
follows the first one, and the qubits of the other register come after it. -/
theorem layout_follows_registers_grown :
    ∃ (b c d : Circuit ℤ) (none ids : List QubitId),
      (withSize "grown" 1 0).addQubitRegister "none" 0 = .ok (b, none) ∧
      b.addQubitRegister "a" 2 = .ok (c, ids) ∧ d = c.addQubit.1 ∧ d.Built ∧
      (QubitLayout.ofCircuit ⟨false⟩ d).index ⟨3⟩ = .ok 1 ∧
      (QubitLayout.ofCircuit ⟨true⟩ d).index ⟨3⟩ = .ok 2 ∧
      (QubitLayout.ofCircuit ⟨false⟩ d).index ⟨2⟩ = .ok 3 ∧
      (QubitLayout.ofCircuit ⟨true⟩ d).index ⟨2⟩ = .ok 0 := by
  have hnone : (withSize "grown" 1 0 : Circuit ℤ).addQubitRegister "none" 0 = .ok (_, _) := rfl
  have hregister : Circuit.addQubitRegister (α := ℤ) { withSize "grown" 1 0 with
      qregs := [⟨"q", [⟨0⟩]⟩, ⟨"none", []⟩] } "a" 2 = .ok (_, _) := rfl
  have hgrown := ((Built.withSize "grown" 1 0).addQubitRegister hnone).addQubitRegister hregister
    |>.addQubits 1
  obtain ⟨hplaced, -⟩ := hgrown.layout_follows_registers (by decide)
  obtain ⟨-, -, -, hlast⟩ := hplaced 3 ⟨⟨3⟩, "q", 1⟩ rfl
  obtain ⟨-, -, -, hmiddle⟩ := hplaced 2 ⟨⟨2⟩, "a", 1⟩ rfl
  obtain ⟨-, hlast, hlast'⟩ := hlast [] ⟨"q", [⟨0⟩, ⟨3⟩]⟩ _ rfl (by decide)
  obtain ⟨-, hmiddle, hmiddle'⟩ :=
    hmiddle [⟨"q", [⟨0⟩, ⟨3⟩]⟩, ⟨"none", []⟩] ⟨"a", [⟨1⟩, ⟨2⟩]⟩ [] rfl (by decide)
  exact ⟨_, _, _, _, _, hnone, hregister, rfl, hgrown, hlast, hlast', hmiddle, hmiddle'⟩

end Circuit

end KetSim

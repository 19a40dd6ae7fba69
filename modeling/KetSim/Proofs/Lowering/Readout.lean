import KetSim.Proofs.Circuit.Measurement
import KetSim.Proofs.Lowering.Layout
import KetSim.Proofs.Outcome
import KetSim.Lowering.Readout

/-! # The readout of a circuit

Scanning the instructions of a well-formed circuit succeeds if none of them acts
on a measured qubit, and the columns of the readout are then the engine indices of
the qubits that were last measured into the bits.
-/
namespace KetSim

variable {α : Type}

/-! ## Columns -/

theorem eraseDups_of_nodup {β : Type} [DecidableEq β] {xs : List β} (h : xs.Nodup) :
    xs.eraseDups = xs := by
  induction xs with
  | nil => rfl
  | cons x rest ih =>
    obtain ⟨hx, hrest⟩ := List.nodup_cons.mp h
    have hfilter : rest.filter (fun y => !y == x) = rest :=
      List.filter_eq_self.mpr fun y hy => by simpa using ne_of_mem_of_not_mem hy hx
    rw [List.eraseDups_cons, hfilter, ih hrest]

theorem Circuit.testBit_place (c : Circuit α) {x : ℕ} (hx : x < 2 ^ c.numQubits) :
    x.testBit ∘ c.place = Ket.assign fun i : Fin c.numQubits => x.testBit (c.place ⟨i⟩) := by
  funext q
  by_cases hq : q.index < c.numQubits
  · simp [Ket.assign, hq]
  · have hbit := Ket.testBit_of_le hx (not_lt.mp hq)
    simp [Ket.assign, hq, place, hbit]

namespace Circuit.WellFormed

variable {c : Circuit α}

/-- A basis index is determined by the bits of the qubits. -/
theorem eq_of_testBit_place (h : c.WellFormed) {x y : ℕ}
    (hxy : x.testBit ∘ c.place = y.testBit ∘ c.place) : x = y := by
  apply Nat.eq_of_testBit_eq
  intro p
  obtain ⟨q, rfl⟩ := h.place_surjective p
  exact congrFun hxy q

theorem bijective_testBit_place (h : c.WellFormed) : Function.Bijective
    fun (x : Fin (2 ^ c.numQubits)) (i : Fin c.numQubits) => x.val.testBit (c.place ⟨i⟩) := by
  refine (Fintype.bijective_iff_injective_and_card _).mpr ⟨fun x y hxy => ?_, by simp⟩
  apply Fin.ext
  apply h.eq_of_testBit_place
  rw [c.testBit_place x.isLt, c.testBit_place y.isLt]
  exact congrArg Ket.assign hxy

/-- The basis indices run through the assignments to the declared qubits. -/
theorem sum_testBit_place (h : c.WellFormed) (F : (QubitId → Bool) → ℝ) :
    ∑ x ∈ Finset.range (2 ^ c.numQubits), F (x.testBit ∘ c.place) =
      ∑ f : Fin c.numQubits → Bool, F (Ket.assign f) := by
  rw [Finset.sum_range]
  exact Fintype.sum_bijective _ h.bijective_testBit_place _ _ fun x => by
    rw [c.testBit_place x.isLt]

/-- An assignment that sets declared qubits only is spelled by a basis index. -/
theorem exists_testBit_place (h : c.WellFormed) {v : QubitId → Bool}
    (hv : ∀ q : QubitId, c.numQubits ≤ q.index → v q = false) :
    ∃ x < 2 ^ c.numQubits, x.testBit ∘ c.place = v := by
  obtain ⟨x, hx⟩ := h.bijective_testBit_place.surjective fun i => v ⟨i⟩
  refine ⟨x, x.isLt, ?_⟩
  rw [c.testBit_place x.isLt]
  funext q
  by_cases hq : q.index < c.numQubits
  · simpa [Ket.assign, hq] using congrFun hx ⟨q.index, hq⟩
  · simp [Ket.assign, hq, hv q (not_lt.mp hq)]

theorem columnOf?_eq (h : c.WellFormed) {b : ClbitId} (hb : b.index < c.numClbits) :
    Readout.columnOf? c.clbits b = some b.index := by
  have hid {j : ℕ} {x : Clbit} (hx : c.clbits[j]? = some x) : x.id = ⟨j⟩ := by
    have hmap := congrArg (fun ids => ids[j]?) h.clbits
    obtain ⟨hj, -⟩ := List.getElem?_eq_some_iff.mp hx
    simpa [hx, show j < c.numClbits from hj] using hmap
  have hcolumn : c.clbits.zipIdx.reverse.find? (·.1.id = b) ≠ none := by
    rw [Ne, List.find?_eq_none]
    intro hnone
    have hget : c.clbits[b.index]? = some c.clbits[b.index] := List.getElem?_eq_getElem hb
    refine hnone (c.clbits[b.index], b.index) ?_ (by simp [hid hget])
    rw [List.mem_reverse, List.mem_zipIdx_iff_getElem?]
    exact hget
  obtain ⟨⟨x, j⟩, hfind⟩ := Option.ne_none_iff_exists'.mp hcolumn
  have hmem := List.mem_of_find?_eq_some hfind
  have hx := List.find?_some hfind
  rw [List.mem_reverse, List.mem_zipIdx_iff_getElem?] at hmem
  have hj : j = b.index := by
    rw [← of_decide_eq_true hx, hid hmem]
  rw [Readout.columnOf?, hfind, hj]
  rfl

theorem unwritten_eq (h : c.WellFormed) :
    Readout.unwritten c.clbits = ⟨List.replicate c.numClbits none⟩ := by
  have hn : ((List.range c.numClbits).map ClbitId.mk).Nodup :=
    List.nodup_range.map fun a b hab => ClbitId.mk.inj hab
  rw [Readout.unwritten, h.clbits, eraseDups_of_nodup hn, List.length_map, List.length_range]

end Circuit.WellFormed

/-! ## Scans -/

/-- A reading on the engine indices of a circuit. -/
def Reading.scan (r : Reading) (c : Circuit α) : Readout.Scan :=
  ⟨⟨r.sources.map (Option.map c.place)⟩, r.measured⟩

namespace Readout

open Circuit (WellFormed)

variable {c : Circuit α}

theorem Scan.step_eq_ok_of_acts {layout : QubitLayout} {clbits : List Clbit} {i : Instruction α}
    (hi : (∃ g, i.kind = .gate g) ∨ i.kind = .reset) {position : ℕ} {s s' : Scan} :
    s.step layout clbits i position = .ok s' ↔ (∀ q ∈ i.qubits, q ∉ s.measured) ∧ s' = s := by
  cases hfind : i.qubits.find? (· ∈ s.measured) with
  | none =>
    have hstep : s.step layout clbits i position = .ok s := by
      rcases hi with ⟨g, hg⟩ | hg <;> simp only [step, hg, hfind]
    have hfresh : ∀ q ∈ i.qubits, q ∉ s.measured := by simpa using hfind
    rw [hstep, Except.ok.injEq, eq_comm]
    exact (and_iff_right hfresh).symm
  | some q =>
    have hstep : s.step layout clbits i position =
        .error (.measuredQubitReused i.name position q) := by
      rcases hi with ⟨g, hg⟩ | hg <;> simp only [step, hg, hfind]
    have hq : q ∈ s.measured := by simpa using List.find?_some hfind
    rw [hstep]
    constructor
    · intro herror
      cases herror
    · rintro ⟨hfresh, -⟩
      exact absurd hq (hfresh q (List.mem_of_find?_eq_some hfind))

/-- A scan goes on unless an instruction acts on a measured qubit. -/
theorem Scan.step_eq_ok (h : c.WellFormed) {i : Instruction α}
    (hi : i.Fits c.numQubits c.numClbits) {r : Reading} {position : ℕ} {s : Scan} :
    (r.scan c).step (.ofCircuit ⟨true⟩ c) c.clbits i position = .ok s ↔
      i.Avoids r.measured ∧ s = (r.next i).scan c := by
  obtain ⟨kind, qubits, clbits⟩ := i
  cases kind with
  | gate g => exact step_eq_ok_of_acts (.inl ⟨g, rfl⟩)
  | reset => exact step_eq_ok_of_acts (.inr rfl)
  | barrier =>
    exact ⟨fun hok => ⟨trivial, (Except.ok.inj hok).symm⟩, fun hs => hs.2 ▸ rfl⟩
  | measure =>
    obtain ⟨q, b, hq, hb⟩ := hi.measure rfl
    obtain rfl : qubits = [q] := hq
    obtain rfl : clbits = [b] := hb
    have hb : b.index < c.numClbits := hi.clbits_lt b (by simp)
    have hq : q.index < c.numQubits := hi.lt q (by simp)
    have hset : (r.next (⟨.measure, [q], [b]⟩ : Instruction α)).scan c =
        ⟨⟨(r.scan c).readout.columns.set b.index (some (c.place q))⟩, q :: r.measured⟩ := by
      simp [Reading.next, Instruction.target?, Reading.scan, List.map_set]
    rw [hset]
    simp only [step, write, h.columnOf?_eq hb, h.index_eq hq, bind, Except.bind,
      Instruction.Avoids, true_and, Except.ok.injEq, Reading.scan, eq_comm]

theorem Scan.run_eq_ok (h : c.WellFormed) {instructions : List (Instruction α)}
    (hi : ∀ i ∈ instructions, i.Fits c.numQubits c.numClbits) {r : Reading} {position : ℕ}
    {s : Scan} :
    run (.ofCircuit ⟨true⟩ c) c.clbits position instructions (r.scan c) = .ok s ↔
      r.Accepts instructions ∧ s = (instructions.foldl Reading.next r).scan c := by
  induction instructions generalizing r position with
  | nil => simp [run, Reading.Accepts, eq_comm]
  | cons i rest ih =>
    obtain ⟨hi, hrest⟩ := List.forall_mem_cons.mp hi
    rw [run, bind_eq_ok]
    simp only [step_eq_ok h hi, Reading.Accepts, List.foldl_cons]
    constructor
    · rintro ⟨s', ⟨havoids, rfl⟩, hrun⟩
      obtain ⟨haccepts, rfl⟩ := (ih hrest).mp hrun
      exact ⟨⟨havoids, haccepts⟩, rfl⟩
    · rintro ⟨⟨havoids, haccepts⟩, rfl⟩
      exact ⟨_, ⟨havoids, rfl⟩, (ih hrest).mpr ⟨haccepts, rfl⟩⟩

theorem scan_start (h : c.WellFormed) : (Reading.start c).scan c = ⟨unwritten c.clbits, []⟩ := by
  simp [h.unwritten_eq, Reading.scan, Reading.start]

/-- A circuit has a readout unless an instruction acts on a measured qubit; its columns are the
engine indices of the qubits that were last measured into the bits. -/
theorem ofCircuit_eq_ok (h : c.WellFormed) {readout : Readout} :
    ofCircuit (.ofCircuit ⟨true⟩ c) c = .ok readout ↔
      (Reading.start c).Accepts c.instructions ∧
        readout = ((c.instructions.foldl Reading.next (.start c)).scan c).readout := by
  rw [ofCircuit, ← scan_start h, bind_eq_ok]
  simp only [Scan.run_eq_ok h h.instructions, Except.ok.injEq]
  constructor
  · rintro ⟨s, ⟨haccepts, rfl⟩, rfl⟩
    exact ⟨haccepts, rfl⟩
  · rintro ⟨haccepts, rfl⟩
    exact ⟨_, ⟨haccepts, rfl⟩, rfl⟩

theorem row_scan (r : Reading) (k : ℕ) :
    (r.scan c).readout.row k = r.row (k.testBit ∘ c.place) := by
  simp only [row, Reading.scan, Reading.row, List.map_map]
  apply List.map_congr_left
  intro source _
  cases source with
  | none => rfl
  | some q => cases hq : k.testBit (c.place q) <;> simp [bit, hq]

end Readout

end KetSim

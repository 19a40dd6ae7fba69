import Mathlib
import KetSim.Proofs.Engine.Renaming
import KetSim.Proofs.Lowering.Program

/-! # Lowering onto renamed qubits

A layout enters the lowering of a circuit by the indices of the qubits alone. If two layouts differ
by a renaming of the engine qubits, then so do the programs; an error names the qubits of the
circuit and is the same with both. The two numberings of a register are such a pair.
-/
namespace KetSim

variable {α : Type} [Scalar α]

theorem StandardGate.image_map (op : StandardGate) (f : ℕ → ℕ) (indices : List ℕ)
    (angles : List α) :
    op.image (indices.map f) angles =
      (op.image indices angles).map (List.map (Engine.Gate.rename f)) := by
  cases op with
  | x | y | z | h | s | sdg | t | tdg | sx | sxdg => cases indices <;> rfl
  | rx | ry | rz | u1 => cases indices <;> cases angles <;> rfl
  | u2 =>
    rcases angles with _ | ⟨a, _ | ⟨b, angles⟩⟩ <;> cases indices <;> rfl
  | u3 =>
    rcases angles with _ | ⟨a, _ | ⟨b, _ | ⟨c, angles⟩⟩⟩ <;> cases indices <;> rfl
  | cx | cy | cz | swap => rcases indices with _ | ⟨p, _ | ⟨q, indices⟩⟩ <;> rfl
  | ccx | cswap => rcases indices with _ | ⟨p, _ | ⟨q, _ | ⟨t, indices⟩⟩⟩ <;> rfl
  | ch | crz | cp | iswap | zzPhase => rfl

namespace Lowering

variable [DecimalText α] {layout layout' : QubitLayout} {f : ℕ → ℕ}

theorem gate_rename (h : ∀ q, layout'.index q = (layout.index q).map f) (position : ℕ) (g : Gate α)
    (qubits : List QubitId) :
    gate layout' position g qubits =
      (gate layout position g qubits).map (List.map (Engine.Gate.rename f)) := by
  obtain ⟨kind, params⟩ := g
  cases kind with
  | custom op => rfl
  | standard op =>
    simp only [gate]
    split
    · rfl
    · rw [mapM_map h]
      cases params.mapM (radians (Gate.name ⟨.standard op, params⟩) position) with
      | error e => rfl
      | ok angles =>
        cases qubits.mapM layout.index with
        | error e => rfl
        | ok indices =>
          simp only [bind, Except.bind, Except.map, StandardGate.image_map]
          cases op.image indices angles <;> rfl

theorem instruction_rename (h : ∀ q, layout'.index q = (layout.index q).map f) (position : ℕ)
    (i : Instruction α) :
    instruction layout' position i =
      (instruction layout position i).map (List.map (Engine.Gate.rename f)) := by
  obtain ⟨kind, qubits, clbits⟩ := i
  cases kind with
  | gate g => exact gate_rename h position g qubits
  | measure | barrier | reset => rfl

/-- Gates that fit the register are added with either names. -/
theorem appendFrom_rename {n : ℕ} {r : Engine.Renaming n}
    (h : ∀ q, layout'.index q = (layout.index q).map r.wire) {instructions : List (Instruction α)}
    (hfits : ∀ i ∈ instructions, ∀ gates, i.Lowers layout gates → ∀ g ∈ gates, g.Fits n)
    (position : ℕ) {p : Engine.Program α} (hp : p.numQubits = n) :
    appendFrom layout' position instructions (p.rename r.wire) =
      (appendFrom layout position instructions p).map (Engine.Program.rename r.wire) := by
  induction instructions generalizing position p with
  | nil => rfl
  | cons i rest ih =>
    obtain ⟨hi, hrest⟩ := List.forall_mem_cons.mp hfits
    rw [appendFrom, appendFrom, instruction_rename h]
    cases himage : instruction layout position i with
    | error e => rfl
    | ok gates =>
      have hgates := hi gates (instruction_eq_ok.mp himage)
      have hadd : addAll gates p = .ok { p with gates := p.gates ++ gates } :=
        addAll_eq_ok.mpr ⟨by rwa [hp], rfl⟩
      have hrenamed : ∀ g ∈ gates.map (Engine.Gate.rename r.wire), g.Fits n := by
        intro g hg
        obtain ⟨g', hg', rfl⟩ := List.mem_map.mp hg
        exact (hgates g' hg').rename r
      have hadd' : addAll (gates.map (Engine.Gate.rename r.wire)) (p.rename r.wire) =
          .ok (Engine.Program.rename r.wire { p with gates := p.gates ++ gates }) :=
        addAll_eq_ok.mpr ⟨fun g hg => hp.symm ▸ hrenamed g hg, by simp [Engine.Program.rename]⟩
      simp only [bind, Except.bind, Except.map, hadd, hadd']
      exact ih hrest _ hp

end Lowering

/-! ## The two numberings -/

namespace Circuit.WellFormed

variable {c : Circuit α} (h : c.WellFormed)
include h

omit [Scalar α] in
/-- A position counted from one end is that counted from the other end, counted back. -/
theorem index_plain {f : ℕ → ℕ} (hf : ∀ q, f q = c.numQubits - 1 - q) (q : QubitId) :
    (QubitLayout.ofCircuit ⟨false⟩ c).index q =
      ((QubitLayout.ofCircuit ⟨true⟩ c).index q).map f := by
  by_cases hq : q.index < c.numQubits
  · have hlt := h.idxOf_lt hq
    have hplace : f (c.place q) = c.order.idxOf q := by
      rw [hf, place, if_pos hq]
      omega
    rw [h.index_eq hq, Except.map, hplace]
    exact h.index_ofCircuit ⟨false⟩ hq
  · rw [h.index_eq_error hq, h.index_eq_error hq]
    rfl

/-- The plain program of a circuit is the mirrored one with the qubits counted back, and it fails
to exist for the same reason. -/
theorem lower_plain [DecimalText α] {r : Engine.Renaming c.numQubits}
    (hr : ∀ q, r.wire q = c.numQubits - 1 - q) :
    c.lower ⟨false⟩ = (c.lower ⟨true⟩).map (Engine.Program.rename r.wire) :=
  Lowering.appendFrom_rename (h.index_plain hr)
    (fun i hi _ hl => h.fits_of_lowers (h.instructions i hi) hl) 0 (p := .empty c.numQubits) rfl

end Circuit.WellFormed

end KetSim

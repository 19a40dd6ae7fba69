import KetSim.Proofs.Circuit.Alike
import KetSim.Proofs.Lowering.Program
import KetSim.Proofs.Lowering.Readout

/-! # Circuits that compile

A circuit from the builder compiles if the engine has an image of every gate, every
angle has a value, nothing is reset, and no gate acts on a qubit that was measured
before.
-/
namespace KetSim

theorem exists_forall₂ {β γ : Type} {R : β → γ → Prop} {xs : List β}
    (h : ∀ x ∈ xs, ∃ y, R x y) : ∃ ys, List.Forall₂ R xs ys := by
  induction xs with
  | nil => exact ⟨[], .nil⟩
  | cons x rest ih =>
    obtain ⟨hx, hrest⟩ := List.forall_mem_cons.mp h
    obtain ⟨y, hy⟩ := hx
    obtain ⟨ys, hys⟩ := ih hrest
    exact ⟨y :: ys, .cons hy hys⟩

namespace Circuit

/-- What a circuit has to be for the engine to run it. -/
structure Executable {α : Type} [Scalar α] (c : Circuit α) : Prop where
  supported : ∀ g ∈ c.gates, g.kind.isSupported = true
  valued : ∀ g ∈ c.gates, ∀ e ∈ g.params, e.halfTurns.isSome = true
  unreset : ∀ i ∈ c.instructions, i.kind ≠ .reset
  measuredLast : c.instructions.Pairwise fun m i => m.isMeasure = true → i.Avoids m.qubits

end Circuit

variable {α : Type}

/-! ## One instruction -/

/-- No reset, and a gate only if the engine has an image of it and its angles meet a condition. -/
def Instruction.SupportedOn (P : Angle α → Prop) (i : Instruction α) : Prop :=
  match i.kind with
  | .gate g => g.kind.isSupported = true ∧ ∀ e ∈ g.params, P e
  | .reset => False
  | .measure | .barrier => True

variable [Scalar α]

/-- Supported, with a value for every angle. -/
abbrev Instruction.Runs (i : Instruction α) : Prop :=
  i.SupportedOn fun e => e.halfTurns.isSome = true

theorem Instruction.Lowers.runs {layout : QubitLayout} {i : Instruction α}
    {gates : List (Engine.Gate α)} (h : i.Lowers layout gates) : i.Runs := by
  cases h with
  | gate supported angle index image =>
    refine ⟨supported, fun e he => ?_⟩
    obtain ⟨a, -, ha⟩ := exists_mem_left angle.flip he
    obtain ⟨t, ht, -⟩ := Option.map_eq_some_iff.mp ha
    rw [ht]
    rfl
  | measure => trivial
  | barrier => trivial

theorem Circuit.WellFormed.exists_lowers {c : Circuit α} (h : c.WellFormed) {i : Instruction α}
    (hfits : i.Fits c.numQubits c.numClbits) (hi : i.Runs) :
    ∃ gates, i.Lowers (.ofCircuit ⟨true⟩ c) gates := by
  obtain ⟨kind, qubits, clbits⟩ := i
  cases kind with
  | measure => exact ⟨[], .measure⟩
  | barrier => exact ⟨[], .barrier⟩
  | reset => exact hi.elim
  | gate g =>
    obtain ⟨kind, params⟩ := g
    obtain ⟨hsupported, hvalued⟩ := hi
    cases kind with
    | custom op => cases hsupported
    | standard op =>
      have hvalue (e : Angle α) (hp : e ∈ params) : ∃ a, e.radians = some a := by
        obtain ⟨t, ht⟩ := Option.isSome_iff_exists.mp (hvalued e hp)
        exact ⟨_, by rw [Angle.radians, ht]; rfl⟩
      obtain ⟨angles, hangles⟩ := exists_forall₂ hvalue
      have hlength : angles.length = op.numParams := by
        rw [← hangles.length_eq]
        exact hfits.length_params rfl
      have hqubits : (qubits.map c.place).length = op.numQubits := by
        rw [List.length_map]
        exact hfits.length_qubits rfl
      obtain ⟨gates, hgates⟩ := StandardGate.exists_image hsupported hqubits hlength
      exact ⟨gates, .gate hsupported hangles ((h.index_iff hfits.lt).mpr rfl) hgates⟩

/-! ## Circuits -/

namespace Circuit

theorem executable_iff {c : Circuit α} :
    c.Executable ↔ (∀ i ∈ c.instructions, i.Runs) ∧
      c.instructions.Pairwise fun m i => m.isMeasure = true → i.Avoids m.qubits := by
  constructor
  · intro h
    refine ⟨fun i hi => ?_, h.measuredLast⟩
    have hreset := h.unreset i hi
    obtain ⟨kind, qubits, clbits⟩ := i
    cases kind with
    | gate g =>
      have hg : g ∈ c.gates := List.mem_filterMap.mpr ⟨_, hi, rfl⟩
      exact ⟨h.supported g hg, h.valued g hg⟩
    | reset => exact absurd rfl hreset
    | measure => trivial
    | barrier => trivial
  · rintro ⟨hruns, hmeasured⟩
    have hgate {g : Gate α} (hg : g ∈ c.gates) :
        g.kind.isSupported = true ∧ ∀ e ∈ g.params, e.halfTurns.isSome = true := by
      obtain ⟨i, hi, hig⟩ := List.mem_filterMap.mp hg
      have hrun := hruns i hi
      obtain ⟨kind, qubits, clbits⟩ := i
      cases kind with
      | gate g' => obtain rfl := Option.some.inj hig; exact hrun
      | _ => cases hig
    refine ⟨fun g hg => (hgate hg).1, fun g hg => (hgate hg).2, fun i hi hreset => ?_, hmeasured⟩
    have hrun := hruns i hi
    simp only [Instruction.Runs, Instruction.SupportedOn, hreset] at hrun

variable [DecimalText α] {c : Circuit α}

/-- A well-formed circuit compiles if it is executable, and only then. -/
theorem WellFormed.exists_compile_iff (h : c.WellFormed) :
    (∃ k, c.compile = .ok k) ↔ c.Executable := by
  have hmeasure (i : Instruction α) (hi : i ∈ c.instructions) := (h.instructions i hi).eq_measure
  rw [executable_iff]
  constructor
  · rintro ⟨k, hk⟩
    obtain ⟨hlower, -, hreadout⟩ := compile_eq_ok.mp hk
    obtain ⟨images, himages, -, -⟩ := lower_eq_ok.mp hlower
    obtain ⟨haccepts, -⟩ := (Readout.ofCircuit_eq_ok h).mp hreadout
    refine ⟨fun i hi => ?_, ((Reading.accepts_iff hmeasure).mp haccepts).2⟩
    obtain ⟨gates, -, hgates⟩ := exists_mem_left himages.flip hi
    exact Instruction.Lowers.runs hgates
  · rintro ⟨hruns, hmeasured⟩
    obtain ⟨images, himages⟩ := exists_forall₂ fun i hi =>
      h.exists_lowers (h.instructions i hi) (hruns i hi)
    have haccepts : (Reading.start c).Accepts c.instructions :=
      (Reading.accepts_iff hmeasure).mpr ⟨fun i _ => i.avoids_nil, hmeasured⟩
    have hreadout := (Readout.ofCircuit_eq_ok h).mpr ⟨haccepts, rfl⟩
    have hlower := lower_eq_ok.mpr
      ⟨images, himages, h.fits_of_forall₂ h.instructions himages, rfl⟩
    exact ⟨⟨_, _, _⟩, compile_eq_ok.mpr ⟨hlower, rfl, hreadout⟩⟩

/-- An executable circuit compiles. -/
theorem WellFormed.exists_compile (h : c.WellFormed) (he : c.Executable) :
    ∃ k, c.compile = .ok k := h.exists_compile_iff.mpr he

end Circuit

/-! ## Circuits alike -/

variable {R : α → α → Prop}

theorem Instruction.Alike.runs {i j : Instruction α} (h : i.Alike R j) (hi : i.Runs) : j.Runs := by
  obtain ⟨kind, qubits, clbits⟩ := i
  obtain ⟨kind', qubits', clbits'⟩ := j
  cases h.kind with
  | gate hparams =>
    refine ⟨hi.1, fun f hf => ?_⟩
    obtain ⟨e, he, hef⟩ := exists_mem_left hparams hf
    rw [← hef.isSome_eq]
    exact hi.2 e he
  | measure => trivial
  | reset => exact hi
  | barrier => trivial

theorem Instruction.Alike.isMeasure_eq {i j : Instruction α} (h : i.Alike R j) :
    i.isMeasure = j.isMeasure := by
  obtain ⟨kind, qubits, clbits⟩ := i
  obtain ⟨kind', qubits', clbits'⟩ := j
  cases h.kind <;> rfl

theorem Instruction.Alike.avoids {i j : Instruction α} (h : i.Alike R j) {measured : List QubitId}
    (hi : i.Avoids measured) : j.Avoids measured := by
  obtain ⟨kind, qubits, clbits⟩ := i
  obtain ⟨kind', qubits', clbits'⟩ := j
  obtain ⟨hkind, hq, -⟩ := h
  obtain rfl : qubits = qubits' := hq
  cases hkind <;> exact hi

theorem Circuit.Alike.executable {c d : Circuit α} (h : c.Alike R d) (hc : c.Executable) :
    d.Executable := by
  obtain ⟨hruns, hmeasured⟩ := executable_iff.mp hc
  refine executable_iff.mpr ⟨fun j hj => ?_, ?_⟩
  · obtain ⟨i, hi, hij⟩ := exists_mem_left h.instructions hj
    exact hij.runs (hruns i hi)
  · refine pairwise_of_forall₂ (fun hm hi hbefore hmeasure => ?_) h.instructions hmeasured
    rw [← hm.qubits]
    exact hi.avoids (hbefore (hm.isMeasure_eq.trans hmeasure))

end KetSim

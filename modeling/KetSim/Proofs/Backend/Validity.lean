import KetSim.Backend.Validation
import KetSim.Proofs.Angle
import KetSim.Proofs.Backend.Reachable
import KetSim.Proofs.Lowering.Supported
import KetSim.Proofs.MachineFloat

/-! # Validation and preparation

A preparation succeeds on the circuits that validation finds no obstacle in and
whose angles have no zero divisor. Validation looks for free symbols only, so a
division by zero passes it and makes the preparation fail.
-/
namespace KetSim

variable {α : Type}

/-! ## Angles without a value -/

namespace Angle

variable [Scalar α]

/-- A divisor in the angle has the value zero. -/
def DividesByZero : Angle α → Prop
  | constant _ | symbol _ => False
  | neg e => e.DividesByZero
  | add a b | sub a b | mul a b => a.DividesByZero ∨ b.DividesByZero
  | div a b =>
    a.DividesByZero ∨ b.DividesByZero ∨ ∃ y, b.halfTurns = some y ∧ Scalar.isZero y = true

theorem dividesByZero_iff {e : Angle α} : e.DividesByZero ↔ SomeZero e.divisors := by
  induction e with
  | constant | symbol => simp [DividesByZero, divisors, SomeZero]
  | neg e ih => exact ih
  | add a b iha ihb | sub a b iha ihb | mul a b iha ihb =>
    rw [DividesByZero, iha, ihb, divisors, someZero_append]
  | div a b iha ihb =>
    rw [DividesByZero, iha, ihb, divisors, someZero_cons, someZero_append, ← or_assoc, or_comm]

/-- An angle has a value unless a symbol is free or a divisor is zero. -/
theorem isSome_halfTurns_iff {e : Angle α} :
    e.halfTurns.isSome = true ↔ e.symbols = [] ∧ ¬ e.DividesByZero := by
  rw [Option.isSome_iff_ne_none, ne_eq, halfTurns_eq_none_iff, not_or, dividesByZero_iff,
    isSymbolic_iff_exists, not_exists, List.eq_nil_iff_forall_not_mem]

end Angle

/-! ## Obstacles -/

namespace Validation

theorem binding_eq_nil {position : ℕ} {g : Gate α} :
    binding position g = [] ↔ ∀ e ∈ g.params, e.symbols = [] := by
  rw [← List.flatMap_eq_nil_iff, binding]
  cases g.params.flatMap Angle.symbols <;> simp

theorem reuse_eq_nil {measured : List QubitId} {position : ℕ} {i : Instruction α} :
    reuse measured position i = [] ↔ ∀ q ∈ i.qubits, q ∉ measured := by
  rw [reuse]
  cases hfind : i.qubits.find? (· ∈ measured) with
  | none => simpa using hfind
  | some q =>
    have hq : q ∈ measured := by simpa using List.find?_some hfind
    constructor
    · intro h
      cases h
    · intro h
      exact absurd hq (h q (List.mem_of_find?_eq_some hfind))

/-- An instruction is no obstacle if it is supported, without free symbols, and acts on no measured
qubit. -/
theorem instruction_eq_nil {measured : List QubitId} {position : ℕ} {i : Instruction α} :
    instruction measured position i = [] ↔
      i.SupportedOn (fun e => e.symbols = []) ∧ i.Avoids measured := by
  obtain ⟨kind, qubits, clbits⟩ := i
  cases kind with
  | gate g =>
    have hsupport : support position g = [] ↔ g.kind.isSupported = true := by
      rw [support]
      split <;> simp_all
    simp only [instruction, List.append_eq_nil_iff, hsupport, binding_eq_nil, reuse_eq_nil,
      Instruction.SupportedOn, Instruction.Avoids]
  | measure => exact ⟨fun _ => ⟨trivial, trivial⟩, fun _ => rfl⟩
  | barrier => exact ⟨fun _ => ⟨trivial, trivial⟩, fun _ => rfl⟩
  | reset => simp [instruction, Instruction.SupportedOn]

theorem instructions_eq_nil {measured : List QubitId} {position : ℕ}
    {list : List (Instruction α)} :
    instructions measured position list = [] ↔
      (∀ i ∈ list, i.SupportedOn (fun e => e.symbols = []) ∧ i.Avoids measured) ∧
        list.Pairwise fun m i => m.isMeasure = true → i.Avoids m.qubits := by
  induction list generalizing measured position with
  | nil => simp [instructions]
  | cons i rest ih =>
    rw [instructions, List.append_eq_nil_iff, instruction_eq_nil, ih, List.forall_mem_cons,
      List.pairwise_cons]
    cases hm : i.isMeasure with
    | true =>
      simp only [↓reduceIte, Instruction.avoids_append, forall_const]
      constructor
      · rintro ⟨hi, hall, hpairwise⟩
        exact ⟨⟨hi, fun j hj => ⟨(hall j hj).1, (hall j hj).2.2⟩⟩, fun j hj => (hall j hj).2.1,
          hpairwise⟩
      · rintro ⟨⟨hi, hall⟩, hlater, hpairwise⟩
        exact ⟨hi, fun j hj => ⟨(hall j hj).1, hlater j hj, (hall j hj).2⟩, hpairwise⟩
    | false => simp [and_assoc]

end Validation

namespace Backend

variable {b : Backend α} {c : Circuit α}

theorem validate_eq_nil : b.validate c = [] ↔ b.checkSize c = .ok () ∧
    (∀ i ∈ c.instructions, i.SupportedOn fun e => e.symbols = []) ∧
      c.instructions.Pairwise fun m i => m.isMeasure = true → i.Avoids m.qubits := by
  have hsize : Validation.size b c = [] ↔ b.checkSize c = .ok () := by
    rw [Validation.size, checkSize]
    split <;> simp
  have havoids (i : Instruction α) : i.Avoids [] := i.avoids_nil
  simp only [validate, List.append_eq_nil_iff, hsize, Validation.instructions_eq_nil, havoids,
    and_true]

variable [Scalar α] [DecimalText α] [BEq α]

/-- A backend prepares a circuit if it has room for it and the circuit is executable: a preparation
that is kept for a circuit that compares as equal tells that this one compiles, too. -/
theorem Reachable.exists_prepare_iff {R : α → α → Prop} (hR : Scalar.Congruence R)
    (hbeq : ∀ x y : α, (x == y) = true → R x y) (hb : b.Reachable) (hc : c.WellFormed)
    (ticket : ℕ) :
    (∃ p, (b.prepare ticket c).2 = .ok p) ↔ b.checkSize c = .ok () ∧ c.Executable := by
  obtain ⟨e, he, hprepare⟩ | ⟨p, hsize, hl, hprepare⟩ | ⟨k, -, hk, hprepare⟩ :=
    b.prepare_cases ticket c
  · rw [hprepare]
    constructor
    · rintro ⟨p, hp⟩
      cases hp
    · rintro ⟨hsize, hexecutable⟩
      obtain ⟨k, hk⟩ := hc.exists_compile hexecutable
      rw [compiled_eq_ok.mpr ⟨hsize, hk⟩] at he
      cases he
  · have halike := Circuit.alike_of_beq hR hbeq (mem_of_lookup? hl).2
    obtain ⟨k, hk, -⟩ := (hb.sound.genuine_of_lookup hl).compiled
    have hexecutable := (halike.wellFormed hc).exists_compile_iff.mp ⟨k, hk⟩
    rw [hprepare]
    exact iff_of_true ⟨p, rfl⟩ ⟨hsize, halike.executable hexecutable⟩
  · obtain ⟨hsize, hcompile⟩ := compiled_eq_ok.mp hk
    rw [hprepare]
    exact iff_of_true ⟨_, rfl⟩ ⟨hsize, hc.exists_compile_iff.mp ⟨k, hcompile⟩⟩

end Backend

/-! ## Zero divisors -/

theorem Instruction.runs_iff [Scalar α] {i : Instruction α} :
    i.Runs ↔ i.SupportedOn (fun e => e.symbols = []) ∧
      ∀ g, i.gate? = some g → ∀ e ∈ g.params, ¬ e.DividesByZero := by
  obtain ⟨kind, qubits, clbits⟩ := i
  cases kind with
  | gate g =>
    simp only [Runs, SupportedOn, Angle.isSome_halfTurns_iff, gate?, Option.some.injEq,
      forall_eq']
    constructor
    · rintro ⟨hs, hall⟩
      exact ⟨⟨hs, fun e he => (hall e he).1⟩, fun e he => (hall e he).2⟩
    · rintro ⟨⟨hs, hsymbols⟩, hdivisors⟩
      exact ⟨hs, fun e he => ⟨hsymbols e he, hdivisors e he⟩⟩
  | measure => simp [Runs, SupportedOn, gate?]
  | barrier => simp [Runs, SupportedOn, gate?]
  | reset => simp [Runs, SupportedOn]

theorem Circuit.forall_runs_iff [Scalar α] {c : Circuit α} :
    (∀ i ∈ c.instructions, i.Runs) ↔
      (∀ i ∈ c.instructions, i.SupportedOn fun e => e.symbols = []) ∧
        ∀ g ∈ c.gates, ∀ e ∈ g.params, ¬ e.DividesByZero := by
  simp only [Instruction.runs_iff, gates, List.mem_filterMap]
  constructor
  · intro h
    refine ⟨fun i hi => (h i hi).1, ?_⟩
    rintro g ⟨i, hi, hg⟩
    exact (h i hi).2 g hg
  · rintro ⟨hsupported, hdivisors⟩ i hi
    exact ⟨hsupported i hi, fun g hg => hdivisors g ⟨i, hi, hg⟩⟩

namespace Backend

/-- A preparation succeeds if validation finds no obstacle and no divisor is zero. -/
theorem exists_prepare_iff_validate {b : Backend Float} (hb : b.Reachable) {c : Circuit Float}
    (hc : c.WellFormed) (ticket : ℕ) :
    (∃ p, (b.prepare ticket c).2 = .ok p) ↔
      b.validate c = [] ∧ ∀ g ∈ c.gates, ∀ e ∈ g.params, ¬ e.DividesByZero := by
  rw [hb.exists_prepare_iff MachineFloat.congruence_alike (fun _ _ => MachineFloat.alike_of_beq) hc,
    validate_eq_nil, Circuit.executable_iff, Circuit.forall_runs_iff]
  tauto

/-- Validation and preparation agree on a circuit unless validation passes a zero divisor. -/
theorem validate_agrees_iff {b : Backend Float} (hb : b.Reachable) {c : Circuit Float}
    (hc : c.Built) (ticket : ℕ) :
    (b.validate c = [] ↔ ∃ p, (b.prepare ticket c).2 = .ok p) ↔
      (b.validate c = [] → ∀ g ∈ c.gates, ∀ e ∈ g.params, ¬ e.DividesByZero) := by
  rw [exists_prepare_iff_validate hb hc.wellFormed ticket]
  tauto

/-- One qubit turned by a quotient of constants. -/
def quotientTurn (a b : Float) : Circuit Float :=
  { Circuit.withSize "quotient" 1 0 with
    instructions := [.ofGate ⟨.standard .rx, [.div (.constant a) (.constant b)]⟩ [⟨0⟩]] }

theorem quotientTurn_built (a b : Float) : (quotientTurn a b).Built := by
  have happend : (Circuit.withSize "quotient" 1 0).appendAll
      [.ofGate ⟨.standard .rx, [.div (.constant a) (.constant b)]⟩ [⟨0⟩]] =
        .ok (quotientTurn a b) := rfl
  exact (Circuit.Built.withSize "quotient" 1 0).appendAll happend

/-- A quarter turn, written as a quotient. -/
theorem validate_agrees_iff_quarter :
    (quotientTurn 1.0 2.0).Built ∧ (new : Backend Float).validate (quotientTurn 1.0 2.0) = [] ∧
      ∃ p, ((new : Backend Float).prepare 0 (quotientTurn 1.0 2.0)).2 = .ok p := by
  have hbuilt := quotientTurn_built 1.0 2.0
  have hvalid : (new : Backend Float).validate (quotientTurn 1.0 2.0) = [] := rfl
  have hdivisor : ∀ g ∈ (quotientTurn 1.0 2.0).gates, ∀ e ∈ g.params, ¬ e.DividesByZero := by
    have hgates : (quotientTurn 1.0 2.0).gates =
        [⟨.standard .rx, [.div (.constant 1.0) (.constant 2.0)]⟩] := rfl
    simp only [hgates, List.mem_singleton, forall_eq]
    rintro (h | h | ⟨y, hy, hzero⟩)
    · exact h
    · exact h
    · obtain rfl : (2.0 : Float) = y := Option.some.inj hy
      exact absurd hzero (by decide)
  have hagrees := (validate_agrees_iff (.build "qulacs" {}) hbuilt 0).mpr fun _ => hdivisor
  exact ⟨hbuilt, hvalid, hagrees.mp hvalid⟩

/-- Validation passes a division by zero, which preparation refuses. -/
theorem validate_disagrees_zero_divisor :
    (new : Backend Float).Reachable ∧ (quotientTurn 1.0 0.0).Built ∧
      ¬ ((new : Backend Float).validate (quotientTurn 1.0 0.0) = [] ↔
        ∃ p, ((new : Backend Float).prepare 0 (quotientTurn 1.0 0.0)).2 = .ok p) ∧
      ∃ e, ((new : Backend Float).prepare 0 (quotientTurn 1.0 0.0)).2 = .error e ∧ e.message =
        "Incompatible circuit: Gate 'rx' at instruction 0 has unbound parameters: (1 / 0)" := by
  have herror : ((new : Backend Float).prepare 0 (quotientTurn 1.0 0.0)).2 = .error _ := rfl
  refine ⟨.build "qulacs" {}, quotientTurn_built 1.0 0.0, ?_, _, herror, by decide +kernel⟩
  intro hagrees
  obtain ⟨p, hp⟩ := hagrees.mp rfl
  rw [herror] at hp
  cases hp

end Backend

end KetSim

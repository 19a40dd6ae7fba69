import Mathlib
import KetSim.Proofs.Angle
import KetSim.Proofs.Lowering.Compiling

/-! # Bound circuits

Binding the symbols of a circuit step by step is binding them at once, where a symbol
keeps the first value that it is given. Symbols without a value stay free, and nothing
but the angles changes. Once no symbol is free, an angle can lack a value only where it
divides by zero. Circuits are values: a circuit is not changed by being bound.
-/
namespace KetSim

variable {α : Type}

/-! ## Ascending names -/

namespace NameSet

def Ascending (s : NameSet) : Prop := s.Pairwise (· < ·)

namespace Ascending

variable {s t : NameSet}

theorem insert (h : s.Ascending) (name : String) : (insert name s).Ascending := by
  induction s with
  | nil => exact List.pairwise_singleton _ name
  | cons x rest ih =>
    obtain ⟨hx, hrest⟩ := List.pairwise_cons.mp h
    rw [NameSet.insert]
    split_ifs with heq hlt
    · exact h
    · refine .cons (fun y hy => ?_) h
      rcases List.mem_cons.mp hy with rfl | hy
      · exact hlt
      · exact hlt.trans (hx y hy)
    · refine .cons (fun y hy => ?_) (ih hrest)
      rcases mem_insert.mp hy with rfl | hy
      · exact lt_of_le_of_ne (not_lt.mp hlt) (Ne.symm heq)
      · exact hx y hy

/-- Two ascending lists of the same names are one list. -/
theorem eq_of_mem_iff (hs : s.Ascending) (ht : t.Ascending) (h : ∀ x, x ∈ s ↔ x ∈ t) : s = t :=
  List.Pairwise.eq_of_mem_iff hs ht h

end Ascending

end NameSet

theorem Angle.ascending_collectSymbols (e : Angle α) {s : NameSet} (h : s.Ascending) :
    (e.collectSymbols s).Ascending := by
  induction e generalizing s with
  | constant v => exact h
  | symbol x => exact h.insert x
  | neg e ih => exact ih h
  | add a b iha ihb | sub a b iha ihb | mul a b iha ihb | div a b iha ihb => exact ihb (iha h)

/-! ## Free symbols -/

namespace Circuit

variable {c : Circuit α}

/-- The symbols of some angles, collected one angle after another. -/
theorem foldl_collectSymbols_spec (params : List (Angle α)) {s : NameSet} (hs : s.Ascending) :
    (params.foldl (fun s p => p.collectSymbols s) s).Ascending ∧
      ∀ x, x ∈ params.foldl (fun s p => p.collectSymbols s) s ↔
        x ∈ s ∨ ∃ e ∈ params, x ∈ e.symbols := by
  induction params generalizing s with
  | nil => exact ⟨hs, by simp⟩
  | cons e rest ih =>
    obtain ⟨hascending, hmem⟩ := ih (e.ascending_collectSymbols hs)
    refine ⟨hascending, fun x => ?_⟩
    rw [List.foldl_cons, hmem, Angle.mem_collectSymbols, List.exists_mem_cons_iff]
    tauto

/-- The free symbols are those of the angles of all gates, in ascending order. -/
theorem freeSymbols_spec (c : Circuit α) : c.freeSymbols.Ascending ∧
    ∀ x, x ∈ c.freeSymbols ↔ ∃ g ∈ c.gates, ∃ e ∈ g.params, x ∈ e.symbols := by
  have hfold (gates : List (Gate α)) (s : NameSet) (hs : s.Ascending) :
      (gates.foldl (fun s g => g.params.foldl (fun s p => p.collectSymbols s) s) s).Ascending ∧
        ∀ x, x ∈ gates.foldl (fun s g => g.params.foldl (fun s p => p.collectSymbols s) s) s ↔
          x ∈ s ∨ ∃ g ∈ gates, ∃ e ∈ g.params, x ∈ e.symbols := by
    induction gates generalizing s with
    | nil => exact ⟨hs, by simp⟩
    | cons g rest ih =>
      obtain ⟨hhere, hmem⟩ := foldl_collectSymbols_spec g.params hs
      obtain ⟨hascending, hrest⟩ := ih _ hhere
      refine ⟨hascending, fun x => ?_⟩
      rw [List.foldl_cons, hrest, hmem, List.exists_mem_cons_iff, or_assoc]
  simpa [freeSymbols] using hfold c.gates [] .nil

theorem gates_bind (c : Circuit α) (values : Binding α) :
    (c.bind values).gates = c.gates.map (·.bind values) := by
  have hgate (i : Instruction α) : (i.bind values).gate? = i.gate?.map (·.bind values) := by
    obtain ⟨kind, qubits, clbits⟩ := i
    cases kind <;> rfl
  simp only [gates, bind, List.filterMap_map, List.map_filterMap, Function.comp_def, hgate]

/-- Binding removes the symbols that it has a value for. -/
theorem freeSymbols_bind (c : Circuit α) (values : Binding α) :
    (c.bind values).freeSymbols = c.freeSymbols.filter fun x => (values x).isNone := by
  obtain ⟨hascending, hmem⟩ := c.freeSymbols_spec
  obtain ⟨hascending', hmem'⟩ := (c.bind values).freeSymbols_spec
  refine hascending'.eq_of_mem_iff (List.Pairwise.filter _ hascending) fun x => ?_
  simp only [hmem', hmem, gates_bind, List.mem_filter, Option.isNone_iff_eq_none, List.mem_map,
    Gate.bind, exists_exists_and_eq_and, Angle.mem_symbols_bind]
  constructor
  · rintro ⟨g, hg, e, he, hx, hfree⟩
    exact ⟨⟨g, hg, e, he, hx⟩, hfree⟩
  · rintro ⟨⟨g, hg, e, he, hx⟩, hfree⟩
    exact ⟨g, hg, e, he, hx, hfree⟩

end Circuit

/-! ## One binding after another -/

/-- The values of the first binding, and those of the second one for all other symbols. -/
def Binding.before (first second : Binding α) : Binding α := fun x => (first x).or (second x)

section Composition

variable (first second : Binding α)

theorem Angle.bind_bind (e : Angle α) :
    (e.bind first).bind second = e.bind (first.before second) := by
  induction e with
  | constant v => rfl
  | symbol x => cases hx : first x <;> simp [bind, Binding.before, hx]
  | neg e ih => exact congrArg neg ih
  | add a b iha ihb => exact congrArg₂ add iha ihb
  | sub a b iha ihb => exact congrArg₂ sub iha ihb
  | mul a b iha ihb => exact congrArg₂ mul iha ihb
  | div a b iha ihb => exact congrArg₂ div iha ihb

theorem Instruction.bind_bind (i : Instruction α) :
    (i.bind first).bind second = i.bind (first.before second) := by
  obtain ⟨kind, qubits, clbits⟩ := i
  cases kind with
  | gate g => simp [bind, Gate.bind, Angle.bind_bind]
  | measure | reset | barrier => rfl

theorem Circuit.bind_bind (c : Circuit α) :
    (c.bind first).bind second = c.bind (first.before second) := by
  simp only [bind, List.map_map, Function.comp_def, Instruction.bind_bind]

end Composition

/-! ## What binding changes -/

variable [Scalar α]

/-- Kinds of instructions that differ in their angles only, which take the values of the first ones
under the binding. -/
inductive InstructionKind.Settles (values : Binding α) :
    InstructionKind α → InstructionKind α → Prop
  | gate {kind : GateKind} {params bound : List (Angle α)}
      (angles : List.Forall₂ (fun e e' => ∀ v, e'.halfTurns = some v ↔ e.HasValue values v)
        params bound) : Settles values (.gate ⟨kind, params⟩) (.gate ⟨kind, bound⟩)
  | measure : Settles values .measure .measure
  | reset : Settles values .reset .reset
  | barrier : Settles values .barrier .barrier

structure Instruction.Settles (values : Binding α) (i j : Instruction α) : Prop where
  kind : i.kind.Settles values j.kind
  qubits : j.qubits = i.qubits
  clbits : j.clbits = i.clbits

structure Circuit.Settles (values : Binding α) (c d : Circuit α) : Prop where
  name : d.name = c.name
  qubits : d.qubits = c.qubits
  clbits : d.clbits = c.clbits
  qregs : d.qregs = c.qregs
  phase : d.phase = c.phase
  instructions : List.Forall₂ (Instruction.Settles values) c.instructions d.instructions

theorem Instruction.settles_bind (values : Binding α) (i : Instruction α) :
    i.Settles values (i.bind values) := by
  obtain ⟨kind, qubits, clbits⟩ := i
  cases kind with
  | gate g =>
    refine ⟨.gate ?_, rfl, rfl⟩
    rw [List.forall₂_map_right_iff, List.forall₂_same]
    exact fun e _ v => Angle.halfTurns_bind_eq_some_iff
  | measure => exact ⟨.measure, rfl, rfl⟩
  | reset => exact ⟨.reset, rfl, rfl⟩
  | barrier => exact ⟨.barrier, rfl, rfl⟩

theorem Circuit.settles_bind (values : Binding α) (c : Circuit α) :
    c.Settles values (c.bind values) := by
  refine ⟨rfl, rfl, rfl, rfl, rfl, ?_⟩
  change List.Forall₂ _ _ (c.instructions.map _)
  rw [List.forall₂_map_right_iff, List.forall₂_same]
  exact fun i _ => i.settles_bind values

/-! ## Circuits without free symbols -/

section Bound

variable {e : Angle α} {values : Binding α}

omit [Scalar α] in
theorem Angle.symbols_bind_eq_nil (hbound : ∀ x ∈ e.symbols, (values x).isSome = true) :
    (e.bind values).symbols = [] := by
  rw [List.eq_nil_iff_forall_not_mem]
  intro x hx
  obtain ⟨hmem, hnone⟩ := mem_symbols_bind.mp hx
  exact absurd (hbound x hmem) (by simp [hnone])

/-- An angle whose symbols all have values lacks one only if it divides by zero. -/
theorem Angle.halfTurns_bind_eq_none_iff (hbound : ∀ x ∈ e.symbols, (values x).isSome = true) :
    (e.bind values).halfTurns = none ↔
      ∃ d ∈ e.divisors, ∃ y, d.HasValue values y ∧ Scalar.isZero y = true := by
  have hsymbolic : ¬ (e.bind values).isSymbolic = true := by
    rw [isSymbolic_iff_exists, symbols_bind_eq_nil hbound]
    simp
  rw [halfTurns_eq_none_iff, or_iff_right hsymbolic, someZero_divisors_bind]

theorem Angle.isSome_halfTurns_bind_iff :
    (e.bind values).halfTurns.isSome = true ↔ ∃ v, e.HasValue values v := by
  simp only [Option.isSome_iff_exists, halfTurns_bind_eq_some_iff]

omit [Scalar α] in
/-- Only a gate becomes a gate, and its angles are bound one by one. -/
theorem Instruction.bind_eq_gate {i : Instruction α} {kind : GateKind} {params : List (Angle α)}
    {qubits : List QubitId} {clbits : List ClbitId}
    (h : i.bind values = ⟨.gate ⟨kind, params⟩, qubits, clbits⟩) :
    ∃ original, i = ⟨.gate ⟨kind, original⟩, qubits, clbits⟩ ∧
      original.map (·.bind values) = params := by
  obtain ⟨kind', qubits', clbits'⟩ := i
  cases kind' with
  | gate g =>
    simp only [bind, Gate.bind, Instruction.mk.injEq, InstructionKind.gate.injEq,
      Gate.mk.injEq] at h
    obtain ⟨⟨rfl, hparams⟩, rfl, rfl⟩ := h
    exact ⟨g.params, rfl, hparams⟩
  | measure | reset | barrier => cases h

end Bound

namespace Circuit

/-- The error that tells of the first division by zero under a binding: all instructions before it
run, and it stands in the first angle without a value of a supported gate. -/
inductive StopsAtZero [DecimalText α] (c : Circuit α) (values : Binding α) : LoweringError → Prop
  | intro {before after : List (Instruction α)} {op : StandardGate} {valued rest : List (Angle α)}
      {e d : Angle α} {y : α} {qubits : List QubitId} {clbits : List ClbitId}
      (split : c.instructions =
        before ++ ⟨.gate ⟨.standard op, valued ++ e :: rest⟩, qubits, clbits⟩ :: after)
      (runs : ∀ j ∈ before, (j.bind values).Runs) (supported : op.isSupported = true)
      (valued : ∀ a ∈ valued, ∃ v, a.HasValue values v) (divisor : d ∈ e.divisors)
      (value : d.HasValue values y) (zero : Scalar.isZero y = true) :
      StopsAtZero c values (.unboundParameter op.name before.length (e.bind values).text)

variable [DecimalText α] {c : Circuit α} {values : Binding α}

omit [Scalar α] [DecimalText α] in
theorem isSome_of_split (hbound : ∀ x ∈ c.freeSymbols, (values x).isSome = true)
    {before after : List (Instruction α)} {kind : GateKind} {valued rest : List (Angle α)}
    {e : Angle α} {qubits : List QubitId} {clbits : List ClbitId}
    (split : c.instructions =
      before ++ ⟨.gate ⟨kind, valued ++ e :: rest⟩, qubits, clbits⟩ :: after) :
    ∀ x ∈ e.symbols, (values x).isSome = true := by
  intro x hx
  refine hbound x ((c.freeSymbols_spec.2 x).mpr ⟨⟨kind, valued ++ e :: rest⟩, ?_, e, ?_, hx⟩)
  · exact mem_gates (i := ⟨.gate ⟨kind, valued ++ e :: rest⟩, qubits, clbits⟩)
      (split ▸ List.mem_append_right _ List.mem_cons_self) rfl
  · exact List.mem_append_right _ List.mem_cons_self

/-- With all symbols bound, a missing value is a division by zero. -/
theorem Built.unbound_iff (h : c.Built)
    (hbound : ∀ x ∈ c.freeSymbols, (values x).isSome = true) {gate text : String} {position : ℕ} :
    (c.bind values).compile = .error (.unboundParameter gate position text) ↔
      c.StopsAtZero values (.unboundParameter gate position text) := by
  rw [(h.bind values).compile_eq_iff]
  constructor
  · intro hc
    cases hc with
    | unbound split runs supported valued fault =>
      obtain ⟨before, rest, hc, rfl, hrest⟩ := List.map_eq_append_iff.mp split
      obtain ⟨i, after, rfl, hi, rfl⟩ := List.map_eq_cons_iff.mp hrest
      obtain ⟨params, rfl, hparams⟩ := Instruction.bind_eq_gate hi
      obtain ⟨settled, others, rfl, rfl, hothers⟩ := List.map_eq_append_iff.mp hparams
      obtain ⟨e, rest, rfl, rfl, rfl⟩ := List.map_eq_cons_iff.mp hothers
      have hsymbols := isSome_of_split hbound hc
      obtain ⟨d, hd, y, hy, hzero⟩ := (Angle.halfTurns_bind_eq_none_iff hsymbols).mp fault
      simp only [List.forall_mem_map, Angle.isSome_halfTurns_bind_iff] at runs valued
      rw [List.length_map, Angle.symbols_bind_eq_nil hsymbols]
      exact .intro hc runs supported valued hd hy hzero
  · intro hs
    cases hs with
    | @intro before after op valued rest e d y qubits clbits split runs supported hvalued divisor
        value zero =>
      have hsymbols := isSome_of_split hbound split
      have hfault := (Angle.halfTurns_bind_eq_none_iff hsymbols).mpr ⟨d, divisor, y, value, zero⟩
      have hsplit : (c.bind values).instructions = before.map (·.bind values) ++
          ⟨.gate ⟨.standard op, valued.map (·.bind values) ++
            e.bind values :: rest.map (·.bind values)⟩, qubits, clbits⟩ ::
              after.map (·.bind values) := by
        simp [Circuit.bind, split, Instruction.bind, Gate.bind]
      have hruns : ∀ j ∈ before.map (·.bind values), j.Runs := List.forall_mem_map.mpr runs
      have hangles : ∀ a ∈ valued.map (·.bind values), a.halfTurns.isSome = true :=
        List.forall_mem_map.mpr fun a ha => Angle.isSome_halfTurns_bind_iff.mpr (hvalued a ha)
      have hcompiles := Compiles.unbound hsplit hruns supported hangles hfault
      rwa [List.length_map, Angle.symbols_bind_eq_nil hsymbols] at hcompiles

/-- Two bindings in a row are one in which the first has precedence. A binding removes the symbols
that it has values for, and changes nothing but angles, to ones with their values under it. If it
has values for all free symbols, the only missing values that compiling reports are divisions by
zero. -/
theorem Built.bind_composes (h : c.Built) :
    (∀ first second : Binding α, (c.bind first).bind second = c.bind (first.before second)) ∧
    (∀ values : Binding α,
      (c.bind values).freeSymbols = c.freeSymbols.filter fun x => (values x).isNone) ∧
    (∀ values : Binding α, c.Settles values (c.bind values)) ∧
    ∀ values : Binding α, (∀ x ∈ c.freeSymbols, (values x).isSome = true) →
      ∀ gate position text,
        (c.bind values).compile = .error (.unboundParameter gate position text) ↔
          c.StopsAtZero values (.unboundParameter gate position text) :=
  ⟨fun first second => c.bind_bind first second, c.freeSymbols_bind, fun values =>
    c.settles_bind values, fun _ hbound _ _ _ => h.unbound_iff hbound⟩

/-- Of two values for one symbol the first one counts, and the second binding makes a divisor
zero. -/
theorem bind_composes_quotient :
    let first : Binding Float := fun x => if x = "a" then some 0.5 else none
    let second : Binding Float := fun x =>
      if x = "a" then some 9.0 else if x = "b" then some 0.0 else none
    ∃ c : Circuit Float, (withSize "quotient" 1 0).appendAll
        [.ofGate ⟨.standard .rz, [.add (.symbol "a") (.symbol "a")]⟩ [⟨0⟩],
          .ofGate ⟨.standard .rx, [.div (.symbol "a") (.symbol "b")]⟩ [⟨0⟩]] = .ok c ∧
      (c.bind first).bind second = c.bind (first.before second) ∧
      (c.bind first).freeSymbols = ["b"] ∧ c.Settles second (c.bind second) ∧
      ((c.bind first).bind second).compile = .error (.unboundParameter "rx" 1 "(0.5 / 0)") := by
  intro first second
  have happend : (withSize "quotient" 1 0 : Circuit Float).appendAll
      [.ofGate ⟨.standard .rz, [.add (.symbol "a") (.symbol "a")]⟩ [⟨0⟩],
        .ofGate ⟨.standard .rx, [.div (.symbol "a") (.symbol "b")]⟩ [⟨0⟩]] = .ok _ := rfl
  obtain ⟨hcompose, hfree, hsettles, hunbound⟩ :=
    ((Built.withSize "quotient" 1 0).appendAll happend).bind_composes
  have htext : ((Angle.div (.symbol "a") (.symbol "b")).bind (first.before second)).text =
      "(0.5 / 0)" := by decide +kernel
  refine ⟨_, happend, hcompose first second, (hfree first).trans (by decide +kernel),
    hsettles second, ?_⟩
  rw [hcompose, hunbound _ (by decide +kernel), ← htext]
  have hruns : ∀ j ∈ [Instruction.ofGate ⟨.standard .rz, [.add (.symbol "a") (.symbol "a")]⟩ [⟨0⟩]],
      (j.bind (first.before second)).Runs := by
    intro j hj
    obtain rfl := List.mem_singleton.mp hj
    refine ⟨by decide, fun e he => ?_⟩
    obtain rfl := List.mem_singleton.mp he
    rfl
  have hzero : (Angle.symbol "b").HasValue (first.before second) 0.0 := .symbol rfl
  have hsupported : StandardGate.rx.isSupported = true := by decide
  have hnone : ∀ a ∈ ([] : List (Angle Float)), ∃ v, a.HasValue (first.before second) v :=
    fun a ha => absurd ha List.not_mem_nil
  exact .intro rfl hruns hsupported hnone List.mem_cons_self hzero (by decide)

end Circuit

end KetSim

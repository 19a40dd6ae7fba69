import Mathlib
import KetSim.Angle

/-! # Values of angles

The value of an angle is told by rules, with the values of its symbols read from a
binding. An angle that is bound and then evaluated has this value. It has none
exactly if the binding lacks one of its symbols or a divisor has the value zero.
-/
namespace KetSim.Angle

variable {α : Type}

/-! ## Symbols -/

/-- An angle is symbolic if it has a symbol. -/
theorem isSymbolic_iff_exists {e : Angle α} : e.isSymbolic = true ↔ ∃ x, x ∈ e.symbols := by
  induction e with
  | constant v => simp [isSymbolic, symbols, collectSymbols]
  | symbol x => simp [isSymbolic, symbols, collectSymbols]
  | neg e ih => exact ih
  | add a b iha ihb | sub a b iha ihb | mul a b iha ihb | div a b iha ihb =>
    rw [isSymbolic, Bool.or_eq_true, iha, ihb, ← exists_or]
    exact exists_congr fun x => or_comm.trans mem_collectSymbols.symm

/-- A binding leaves the symbols free for which it has no value. -/
theorem mem_symbols_bind {e : Angle α} {values : Binding α} {x : String} :
    x ∈ (e.bind values).symbols ↔ x ∈ e.symbols ∧ values x = none := by
  induction e with
  | constant v => simp [bind, symbols, collectSymbols]
  | symbol y =>
    cases hy : values y with
    | none =>
      simp only [bind, hy, symbols, collectSymbols, NameSet.mem_insert, List.not_mem_nil, or_false]
      constructor
      · rintro rfl
        exact ⟨rfl, hy⟩
      · exact And.left
    | some v =>
      simp only [bind, hy, symbols, collectSymbols, NameSet.mem_insert, List.not_mem_nil, or_false,
        false_iff, not_and]
      rintro rfl
      simp [hy]
  | neg e ih => exact ih
  | add a b iha ihb | sub a b iha ihb | mul a b iha ihb | div a b iha ihb =>
    have hbound : x ∈ (b.bind values).collectSymbols (a.bind values).symbols ↔
        x ∈ b.collectSymbols a.symbols ∧ values x = none := by
      rw [mem_collectSymbols, mem_collectSymbols, iha, ihb, or_and_right]
    exact hbound

theorem isSymbolic_bind {e : Angle α} {values : Binding α} :
    (e.bind values).isSymbolic = true ↔ ∃ x ∈ e.symbols, values x = none := by
  rw [isSymbolic_iff_exists]
  exact exists_congr fun x => mem_symbols_bind

/-! ## Divisors -/

/-- The divisors in an angle, with the divisors inside of them. -/
def divisors : Angle α → List (Angle α)
  | constant _ | symbol _ => []
  | neg e => e.divisors
  | add a b | sub a b | mul a b => a.divisors ++ b.divisors
  | div a b => b :: (a.divisors ++ b.divisors)

theorem divisors_bind (e : Angle α) (values : Binding α) :
    (e.bind values).divisors = e.divisors.map (·.bind values) := by
  induction e with
  | constant v => rfl
  | symbol x => cases hx : values x <;> simp [bind, hx, divisors]
  | neg e ih => exact ih
  | add a b iha ihb | sub a b iha ihb | mul a b iha ihb | div a b iha ihb =>
    simp [bind, divisors, iha, ihb]

/-! ## Values of two operands -/

section Operands

variable {x y : Option α} (f : α → α → α)

theorem operands_eq_none :
    (do let v ← x; let w ← y; some (f v w)) = none ↔ x = none ∨ y = none := by
  cases x <;> cases y <;> simp

theorem operands_eq_some {z : α} : (do let v ← x; let w ← y; some (f v w)) = some z ↔
    ∃ v w, x = some v ∧ y = some w ∧ f v w = z := by
  cases x <;> cases y <;> simp

end Operands

variable [Scalar α]

theorem halfTurns_neg_eq_none {e : Angle α} : (neg e).halfTurns = none ↔ e.halfTurns = none := by
  rw [halfTurns]
  cases e.halfTurns <;> simp

theorem halfTurns_div_eq_none {a b : Angle α} : (div a b).halfTurns = none ↔
    (a.halfTurns = none ∨ b.halfTurns = none) ∨
      ∃ y, b.halfTurns = some y ∧ Scalar.isZero y = true := by
  rw [halfTurns]
  cases b.halfTurns with
  | none => simp
  | some y => cases hy : Scalar.isZero y <;> cases a.halfTurns <;> simp [hy]

theorem halfTurns_div_eq_some {a b : Angle α} {z : α} : (div a b).halfTurns = some z ↔
    ∃ v w, a.halfTurns = some v ∧ b.halfTurns = some w ∧ Scalar.isZero w = false ∧ v / w = z := by
  rw [halfTurns]
  cases b.halfTurns with
  | none => simp
  | some y => cases hy : Scalar.isZero y <;> cases a.halfTurns <;> simp [hy]

/-! ## Angles without a value -/

/-- One of the angles has the value zero. -/
def SomeZero (ds : List (Angle α)) : Prop :=
  ∃ d ∈ ds, ∃ y, d.halfTurns = some y ∧ Scalar.isZero y = true

theorem someZero_cons {d : Angle α} {ds : List (Angle α)} :
    SomeZero (d :: ds) ↔ (∃ y, d.halfTurns = some y ∧ Scalar.isZero y = true) ∨ SomeZero ds := by
  simp only [SomeZero, List.exists_mem_cons_iff]

theorem someZero_append {ds ds' : List (Angle α)} :
    SomeZero (ds ++ ds') ↔ SomeZero ds ∨ SomeZero ds' := by
  simp only [SomeZero, List.mem_append, or_and_right, exists_or]

/-- An angle has no value if it has a symbol or a divisor has the value zero. -/
theorem halfTurns_eq_none_iff {e : Angle α} :
    e.halfTurns = none ↔ e.isSymbolic = true ∨ SomeZero e.divisors := by
  induction e with
  | constant v => simp [halfTurns, isSymbolic, divisors, SomeZero]
  | symbol x => simp [halfTurns, isSymbolic]
  | neg e ih => exact halfTurns_neg_eq_none.trans ih
  | add a b iha ihb | sub a b iha ihb | mul a b iha ihb =>
    rw [halfTurns, operands_eq_none, iha, ihb, isSymbolic, divisors, Bool.or_eq_true,
      someZero_append]
    exact or_or_or_comm
  | div a b iha ihb =>
    rw [halfTurns_div_eq_none, iha, ihb, isSymbolic, divisors, Bool.or_eq_true, someZero_cons,
      someZero_append, or_or_or_comm, or_assoc, or_comm (a := SomeZero _ ∨ _)]

/-! ## Values under a binding -/

/-- The value of an angle whose symbols have the values of the binding; a quotient has one if its
divisor is not zero. -/
inductive HasValue (values : Binding α) : Angle α → α → Prop
  | constant (v : α) : HasValue values (constant v) v
  | symbol {x : String} {v : α} (hx : values x = some v) : HasValue values (symbol x) v
  | neg {e : Angle α} {v : α} (he : HasValue values e v) : HasValue values (neg e) (-v)
  | add {a b : Angle α} {v w : α} (ha : HasValue values a v) (hb : HasValue values b w) :
      HasValue values (add a b) (v + w)
  | sub {a b : Angle α} {v w : α} (ha : HasValue values a v) (hb : HasValue values b w) :
      HasValue values (sub a b) (v - w)
  | mul {a b : Angle α} {v w : α} (ha : HasValue values a v) (hb : HasValue values b w) :
      HasValue values (mul a b) (v * w)
  | div {a b : Angle α} {v w : α} (ha : HasValue values a v) (hb : HasValue values b w)
      (hw : Scalar.isZero w = false) : HasValue values (div a b) (v / w)

variable {values : Binding α} {e : Angle α} {v : α}

theorem halfTurns_bind_of_hasValue (h : e.HasValue values v) :
    (e.bind values).halfTurns = some v := by
  induction h with
  | constant v => rfl
  | symbol hx => simp [bind, hx, halfTurns]
  | neg _ ih => simp [bind, halfTurns, ih]
  | add _ _ iha ihb | sub _ _ iha ihb | mul _ _ iha ihb => simp [bind, halfTurns, iha, ihb]
  | div _ _ hw iha ihb => exact halfTurns_div_eq_some.mpr ⟨_, _, iha, ihb, hw, rfl⟩

theorem hasValue_of_halfTurns_bind (h : (e.bind values).halfTurns = some v) :
    e.HasValue values v := by
  induction e generalizing v with
  | constant w => exact Option.some.inj h ▸ .constant w
  | symbol x =>
    cases hx : values x with
    | none => simp [bind, hx, halfTurns] at h
    | some w =>
      simp only [bind, hx, halfTurns, Option.some.injEq] at h
      exact .symbol (h ▸ hx)
  | neg e ih =>
    obtain ⟨w, hw, hv⟩ := Option.bind_eq_some_iff.mp h
    exact Option.some.inj hv ▸ .neg (ih hw)
  | add a b iha ihb =>
    obtain ⟨w, u, hw, hu, rfl⟩ := (operands_eq_some (· + ·)).mp h
    exact .add (iha hw) (ihb hu)
  | sub a b iha ihb =>
    obtain ⟨w, u, hw, hu, rfl⟩ := (operands_eq_some (· - ·)).mp h
    exact .sub (iha hw) (ihb hu)
  | mul a b iha ihb =>
    obtain ⟨w, u, hw, hu, rfl⟩ := (operands_eq_some (· * ·)).mp h
    exact .mul (iha hw) (ihb hu)
  | div a b iha ihb =>
    obtain ⟨w, u, hw, hu, hzero, rfl⟩ := halfTurns_div_eq_some.mp h
    exact .div (iha hw) (ihb hu) hzero

theorem halfTurns_bind_eq_some_iff : (e.bind values).halfTurns = some v ↔ e.HasValue values v :=
  ⟨hasValue_of_halfTurns_bind, halfTurns_bind_of_hasValue⟩

theorem someZero_divisors_bind : SomeZero (e.bind values).divisors ↔
    ∃ d ∈ e.divisors, ∃ y, d.HasValue values y ∧ Scalar.isZero y = true := by
  simp only [SomeZero, divisors_bind, List.mem_map, exists_exists_and_eq_and,
    halfTurns_bind_eq_some_iff]

/-- A bound angle has no value exactly if the binding lacks a symbol of it or one of its divisors
has the value zero under the binding; otherwise it has the value under the binding. Without a
binding these are the symbolic angles and those with a zero divisor, and the symbolic ones are
those with symbols. -/
theorem halfTurns_bind (e : Angle α) (values : Binding α) :
    ((e.bind values).halfTurns = none ↔ (∃ x ∈ e.symbols, values x = none) ∨
      ∃ d ∈ e.divisors, ∃ y, d.HasValue values y ∧ Scalar.isZero y = true) ∧
    (∀ v, (e.bind values).halfTurns = some v ↔ e.HasValue values v) ∧
    (e.halfTurns = none ↔ e.isSymbolic = true ∨
      ∃ d ∈ e.divisors, ∃ y, d.halfTurns = some y ∧ Scalar.isZero y = true) ∧
    (e.isSymbolic = true ↔ e.symbols ≠ []) := by
  refine ⟨?_, fun v => halfTurns_bind_eq_some_iff, halfTurns_eq_none_iff, ?_⟩
  · rw [halfTurns_eq_none_iff, isSymbolic_bind, someZero_divisors_bind]
  · rw [isSymbolic_iff_exists, ne_eq, List.eq_nil_iff_forall_not_mem, not_forall_not]

end KetSim.Angle

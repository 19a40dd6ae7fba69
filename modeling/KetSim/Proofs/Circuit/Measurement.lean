import KetSim.Proofs.Circuit.Meaning
import Mathlib.Logic.Function.DependsOn

/-! # Measurements

A measurement projects a ket onto the two values of a qubit and overwrites a
classical bit with the outcome, so a run branches at every measurement. If no gate
acts on a qubit that was measured before, all projections can be moved to the end:
the chance of a row of bits is the weight of the assignments that spell it.
-/
namespace KetSim

/-! ## Projections -/

namespace Ket

variable {ι : Type}

def keep (A : (ι → Bool) → Bool) (ψ : Ket ι) : Ket ι := fun x => if A x then ψ x else 0

def project [DecidableEq ι] (q : ι) (b : Bool) : Ket ι → Ket ι := keep fun x => x q == b

theorem keep_keep (A B : (ι → Bool) → Bool) (ψ : Ket ι) :
    keep B (keep A ψ) = keep (fun x => A x && B x) ψ := by
  funext x
  cases hB : B x <;> simp [keep, hB]

theorem keep_comm (A B : (ι → Bool) → Bool) (ψ : Ket ι) :
    keep B (keep A ψ) = keep A (keep B ψ) := by
  simp only [keep_keep, Bool.and_comm]

variable {A : (ι → Bool) → Bool} {s : Set ι}

theorem controlled_keep (controls : List ι) {f : Ket ι → Ket ι}
    (h : ∀ ψ, f (keep A ψ) = keep A (f ψ)) (ψ : Ket ι) :
    controlled controls f (keep A ψ) = keep A (controlled controls f ψ) := by
  funext x
  have hx := congrFun (h ψ) x
  simp only [keep] at hx
  simp only [controlled, hx, keep]
  split_ifs <;> rfl

variable [DecidableEq ι]

theorem onQubit_keep (hA : DependsOn A s) {q : ι} (hq : q ∉ s) (U : OneQubit) (ψ : Ket ι) :
    onQubit U q (keep A ψ) = keep A (onQubit U q ψ) := by
  funext x
  have hupdate (b : Bool) : A (Function.update x q b) = A x :=
    hA fun p hp => Function.update_of_ne (ne_of_mem_of_not_mem hp hq) _ _
  simp only [onQubit, keep, hupdate]
  split_ifs <;> simp

theorem exchange_keep (hA : DependsOn A s) {a b : ι} (ha : a ∉ s) (hb : b ∉ s) (ψ : Ket ι) :
    exchange a b (keep A ψ) = keep A (exchange a b ψ) := by
  funext x
  have hswap : A (x ∘ Equiv.swap a b) = A x := hA fun p hp => by
    rw [Function.comp_apply, Equiv.swap_apply_of_ne_of_ne (ne_of_mem_of_not_mem hp ha)
      (ne_of_mem_of_not_mem hp hb)]
  simp only [exchange, keep, hswap]

/-- The bits of the qubits numbered below `n`, the other ones clear. -/
def assign {n : ℕ} (f : Fin n → Bool) (q : QubitId) : Bool :=
  if h : q.index < n then f ⟨q.index, h⟩ else false

/-- The squared norm of a ket of the qubits numbered below `n`. -/
noncomputable def weight (n : ℕ) (ψ : Ket QubitId) : ℝ :=
  ∑ f : Fin n → Bool, Complex.normSq (ψ (assign f))

theorem weight_project (n : ℕ) (q : QubitId) (ψ : Ket QubitId) :
    weight n (project q false ψ) + weight n (project q true ψ) = weight n ψ := by
  simp only [weight, ← Finset.sum_add_distrib]
  apply Finset.sum_congr rfl
  intro f _
  cases h : assign f q <;> simp [project, keep, h]

end Ket

theorem StandardGate.operator?_keep {ι : Type} [DecidableEq ι] {op : StandardGate}
    {angles : List ℝ} {names : List ι} {f : Ket ι → Ket ι} (h : op.operator? angles names = some f)
    {A : (ι → Bool) → Bool} {s : Set ι} (hA : DependsOn A s) (hn : ∀ q ∈ names, q ∉ s) (ψ : Ket ι) :
    f (Ket.keep A ψ) = Ket.keep A (f ψ) := by
  have hone (U : OneQubit) {q : ι} (hq : q ∈ names) := Ket.onQubit_keep hA (hn q hq) U
  have hswap {a b : ι} (ha : a ∈ names) (hb : b ∈ names) :=
    Ket.exchange_keep hA (hn a ha) (hn b hb)
  match names with
  | [] => cases op <;> cases h
  | [q] =>
    rw [operator?_singleton] at h
    obtain ⟨U, hU, rfl⟩ := Option.map_eq_some_iff.mp h
    exact hone U (by simp) ψ
  | [a, b] =>
    cases op with
    | cx | cy | cz => cases h; exact Ket.controlled_keep [a] (hone _ (by simp)) ψ
    | swap => cases h; exact hswap (by simp) (by simp) ψ
    | _ => cases h
  | [a, b, c] =>
    cases op with
    | ccx => cases h; exact Ket.controlled_keep [a, b] (hone _ (by simp)) ψ
    | cswap => cases h; exact Ket.controlled_keep [a] (hswap (by simp) (by simp)) ψ
    | _ => cases h
  | a :: b :: c :: d :: rest => cases op <;> cases h

/-! ## Branching runs -/

/-- The qubit that a measurement reads and the bit that it writes. -/
def Instruction.target? {α : Type} (i : Instruction α) : Option (QubitId × ClbitId) :=
  match i.kind, i.qubits, i.clbits with
  | .measure, [q], [b] => some (q, b)
  | _, _, _ => none

theorem Instruction.target?_eq_some {α : Type} {i : Instruction α} {q : QubitId} {b : ClbitId} :
    i.target? = some (q, b) ↔ i = .measure q b := by
  obtain ⟨kind, qubits, clbits⟩ := i
  constructor
  · intro h
    unfold target? at h
    split at h
    · simp_all [measure]
    · cases h
  · intro h
    cases h
    rfl

theorem Instruction.target?_eq_none {α : Type} {i : Instruction α} (h : i.isMeasure ≠ true) :
    i.target? = none := by
  by_contra hsome
  obtain ⟨⟨q, b⟩, hqb⟩ := Option.ne_none_iff_exists'.mp hsome
  obtain rfl := target?_eq_some.mp hqb
  exact h rfl

theorem Instruction.operator?_of_target {i : Instruction ℝ} {q : QubitId} {b : ClbitId}
    (h : i.target? = some (q, b)) : i.operator? = some id := by
  obtain rfl := target?_eq_some.mp h
  rfl

namespace Circuit

/-- The probability that a run from a ket, whose squared norm is the probability of getting there,
ends with a row of bits: a measurement projects onto each outcome and writes it over its bit. -/
noncomputable def chanceFrom? (n : ℕ) (row : List ℕ) :
    List (Instruction ℝ) → Ket QubitId → List ℕ → Option ℝ
  | [], ψ, bits => some (if bits = row then ψ.weight n else 0)
  | i :: rest, ψ, bits =>
    match i.target? with
    | some (q, b) => do
      let p ← chanceFrom? n row rest (ψ.project q false) (bits.set b.index 0)
      let p' ← chanceFrom? n row rest (ψ.project q true) (bits.set b.index 1)
      some (p + p')
    | none => do
      let f ← i.operator?
      chanceFrom? n row rest (f ψ) bits

/-- The probability that a circuit ends with a row of bits, if all of them are zero at first. -/
noncomputable def chance? (c : Circuit ℝ) (row : List ℕ) : Option ℝ :=
  chanceFrom? c.numQubits row c.instructions Ket.zero (List.replicate c.numClbits 0)

end Circuit

/-! ## Readings -/

/-- The qubits measured so far, and the qubit that was last measured into each classical bit. -/
structure Reading where
  measured : List QubitId
  sources : List (Option QubitId)

/-- A gate or a reset acts on none of the qubits in a list. -/
def Instruction.Avoids {α : Type} (i : Instruction α) (measured : List QubitId) : Prop :=
  match i.kind with
  | .gate _ | .reset => ∀ q ∈ i.qubits, q ∉ measured
  | .measure | .barrier => True

theorem Instruction.operator?_keep {i : Instruction ℝ} {f : Ket QubitId → Ket QubitId}
    (h : i.operator? = some f) {measured : List QubitId} (hi : i.Avoids measured)
    {A : (QubitId → Bool) → Bool} (hA : DependsOn A {q | q ∈ measured}) (ψ : Ket QubitId) :
    f (Ket.keep A ψ) = Ket.keep A (f ψ) := by
  obtain ⟨kind, qubits, clbits⟩ := i
  cases kind with
  | gate g =>
    simp only [operator?, Option.bind_eq_bind, Option.bind_eq_some_iff] at h
    obtain ⟨op, -, angles, -, hf⟩ := h
    exact StandardGate.operator?_keep hf hA hi ψ
  | measure => cases h; rfl
  | barrier => cases h; rfl
  | reset => cases h

theorem Instruction.avoids_nil {α : Type} (i : Instruction α) : i.Avoids [] := by
  obtain ⟨kind, qubits, clbits⟩ := i
  cases kind with
  | gate g => simp [Avoids]
  | reset => simp [Avoids]
  | measure => trivial
  | barrier => trivial

theorem Instruction.avoids_append {α : Type} {i : Instruction α} {qubits measured : List QubitId} :
    i.Avoids (qubits ++ measured) ↔ i.Avoids qubits ∧ i.Avoids measured := by
  obtain ⟨kind, operands, clbits⟩ := i
  cases kind with
  | gate g => simp [Avoids, forall_and]
  | reset => simp [Avoids, forall_and]
  | measure => simp [Avoids]
  | barrier => simp [Avoids]

theorem Instruction.avoids_cons {α : Type} {i : Instruction α} {q : QubitId}
    {measured : List QubitId} : i.Avoids (q :: measured) ↔ i.Avoids [q] ∧ i.Avoids measured := by
  rw [← List.singleton_append, avoids_append]

namespace Reading

variable {α : Type}

/-- The classical bits of an assignment; bits that no measurement wrote are zero. -/
def row (r : Reading) (x : QubitId → Bool) : List ℕ :=
  r.sources.map fun source => source.elim 0 fun q => (x q).toNat

def next (r : Reading) (i : Instruction α) : Reading :=
  match i.target? with
  | some (q, b) => ⟨q :: r.measured, r.sources.set b.index (some q)⟩
  | none => r

/-- No instruction acts on a qubit that was measured before. -/
def Accepts : Reading → List (Instruction α) → Prop
  | _, [] => True
  | r, i :: rest => i.Avoids r.measured ∧ (r.next i).Accepts rest

def start (c : Circuit α) : Reading := ⟨[], List.replicate c.numClbits none⟩

theorem next_eq_of_target {r : Reading} {i : Instruction α} {q : QubitId} {b : ClbitId}
    (h : i.target? = some (q, b)) :
    r.next i = ⟨q :: r.measured, r.sources.set b.index (some q)⟩ := by
  simp only [next, h]

theorem row_set (r : Reading) (q : QubitId) (b : ClbitId) (x : QubitId → Bool) :
    (⟨q :: r.measured, r.sources.set b.index (some q)⟩ : Reading).row x =
      (r.row x).set b.index (x q).toNat := by
  simp only [row, List.map_set, Option.elim_some]

theorem next_eq_self {r : Reading} {i : Instruction α} (h : i.target? = none) : r.next i = r := by
  simp only [next, h]

/-- Instructions whose measurements read one qubit each are accepted if they avoid the qubits
measured so far and those that an instruction before them measures. -/
theorem accepts_iff {instructions : List (Instruction α)} {r : Reading}
    (ht : ∀ i ∈ instructions, i.isMeasure = true → ∃ q b, i = .measure q b) :
    r.Accepts instructions ↔ (∀ i ∈ instructions, i.Avoids r.measured) ∧
      instructions.Pairwise fun m i => m.isMeasure = true → i.Avoids m.qubits := by
  induction instructions generalizing r with
  | nil => simp [Accepts]
  | cons i rest ih =>
    obtain ⟨hi, hrest⟩ := List.forall_mem_cons.mp ht
    rw [Accepts, ih hrest, List.forall_mem_cons, List.pairwise_cons]
    by_cases hm : i.isMeasure = true
    · obtain ⟨q, b, rfl⟩ := hi hm
      rw [next_eq_of_target (Instruction.target?_eq_some.mpr rfl)]
      have hcons (j : Instruction α) : j.Avoids (q :: r.measured) ↔
          j.Avoids [q] ∧ j.Avoids r.measured := Instruction.avoids_cons
      simp only [hcons, forall_and]
      constructor
      · rintro ⟨havoids, ⟨hq, hall⟩, hpairwise⟩
        exact ⟨⟨havoids, hall⟩, fun j hj _ => hq j hj, hpairwise⟩
      · rintro ⟨⟨havoids, hall⟩, hq, hpairwise⟩
        exact ⟨havoids, ⟨fun j hj => hq j hj rfl, hall⟩, hpairwise⟩
    · rw [next_eq_self (Instruction.target?_eq_none hm)]
      constructor
      · rintro ⟨havoids, hall, hpairwise⟩
        exact ⟨⟨havoids, hall⟩, fun j _ h => absurd h hm, hpairwise⟩
      · rintro ⟨⟨havoids, hall⟩, -, hpairwise⟩
        exact ⟨havoids, hall, hpairwise⟩

end Reading

/-! ## Measuring at the end -/

namespace Circuit

/-- A reading that shows the same bits on all kept assignments spells a row on all or none. -/
theorem weight_keep_row {n : ℕ} {r : Reading} {A : (QubitId → Bool) → Bool} {bits : List ℕ}
    (hbits : ∀ x, A x = true → r.row x = bits) (row : List ℕ) (ψ : Ket QubitId) :
    Ket.weight n (Ket.keep (fun x => r.row x == row) (Ket.keep A ψ)) =
      if bits = row then Ket.weight n (Ket.keep A ψ) else 0 := by
  split_ifs with hrow
  · congr 1
    funext x
    cases hx : A x with
    | false => simp [Ket.keep, hx]
    | true => simp [Ket.keep, hbits x hx, hrow]
  · apply Finset.sum_eq_zero
    intro f _
    cases hx : A (Ket.assign f) with
    | false => simp [Ket.keep, hx]
    | true => simp [Ket.keep, hbits _ hx, hrow]

/-- The chance of a row after instructions that act on no measured qubit, from a ket that only the
measured qubits were projected in: the weight of the kept assignments that spell the row. -/
theorem chanceFrom?_of_accepts {n : ℕ} {row : List ℕ} {instructions : List (Instruction ℝ)}
    {r : Reading} (hr : r.Accepts instructions) {ψ φ : Ket QubitId}
    (hφ : evolve? instructions ψ = some φ) {A : (QubitId → Bool) → Bool}
    (hA : DependsOn A {q | q ∈ r.measured}) {bits : List ℕ}
    (hbits : ∀ x, A x = true → r.row x = bits) :
    chanceFrom? n row instructions (Ket.keep A ψ) bits =
      some (Ket.weight n (Ket.keep (fun x => (instructions.foldl Reading.next r).row x == row)
        (Ket.keep A φ))) := by
  induction instructions generalizing r ψ A bits with
  | nil =>
    obtain rfl := Option.some.inj hφ
    rw [chanceFrom?, List.foldl_nil, weight_keep_row hbits]
  | cons i rest ih =>
    obtain ⟨hi, hrest⟩ := hr
    simp only [evolve?, Option.bind_eq_bind, Option.bind_eq_some_iff] at hφ
    obtain ⟨f, hf, hφ⟩ := hφ
    cases ht : i.target? with
    | none =>
      rw [Reading.next_eq_self ht] at hrest
      simp only [chanceFrom?, ht, hf, Option.bind_eq_bind, Option.bind_some, List.foldl_cons,
        Reading.next_eq_self ht, Instruction.operator?_keep hf hi hA]
      exact ih hrest hφ hA hbits
    | some target =>
      obtain ⟨q, b⟩ := target
      rw [Instruction.operator?_of_target ht] at hf
      obtain rfl := Option.some.inj hf
      rw [Reading.next_eq_of_target ht] at hrest
      -- Both branches keep what they kept before, on one value of the measured qubit.
      have hbranch (v : Bool) : chanceFrom? n row rest (Ket.project q v (Ket.keep A ψ))
          (bits.set b.index v.toNat) = some (Ket.weight n (Ket.project q v
            (Ket.keep (fun x => (rest.foldl Reading.next (r.next i)).row x == row)
              (Ket.keep A φ)))) := by
        rw [Ket.project, Ket.keep_keep, Ket.keep_comm, Ket.keep_keep A,
          Reading.next_eq_of_target ht]
        refine ih hrest hφ (fun x y hxy => ?_) fun x hx => ?_
        · rw [hA fun p hp => hxy p (List.mem_cons_of_mem q hp), hxy q List.mem_cons_self]
        · simp only [Bool.and_eq_true, beq_iff_eq] at hx
          rw [Reading.row_set, hbits x hx.1, hx.2]
      have hfalse := hbranch false
      have htrue := hbranch true
      simp only [Bool.toNat_false, Bool.toNat_true] at hfalse htrue
      simp only [chanceFrom?, ht, hfalse, htrue, Option.bind_eq_bind, Option.bind_some,
        Ket.weight_project, List.foldl_cons]

theorem chance?_of_accepts {c : Circuit ℝ} (hc : (Reading.start c).Accepts c.instructions)
    {φ : Ket QubitId} (hφ : evolve? c.instructions Ket.zero = some φ) (row : List ℕ) :
    c.chance? row = some (Ket.weight c.numQubits
      (Ket.keep (fun x => (c.instructions.foldl Reading.next (.start c)).row x == row) φ)) :=
  chanceFrom?_of_accepts hc hφ (A := fun _ => true) (fun _ _ _ => rfl) fun x _ => by
    simp [Reading.start, Reading.row]

end Circuit

end KetSim

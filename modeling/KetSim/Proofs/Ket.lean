import Mathlib
import KetSim.Power

/-! # Kets

A ket gives an amplitude to every assignment of bits to names. Names are the
qubits of a circuit or the bit positions of an index; the same few operators act
on both: a matrix on one name, an operator under controls, an exchange of two
names, and a dense matrix on a list of names.
-/
namespace KetSim

/-- The amplitude of every assignment of bits to names. -/
abbrev Ket (ι : Type) := (ι → Bool) → ℂ

namespace Ket

/-- The row or column of a two-by-two matrix that belongs to a bit. -/
def slot (b : Bool) : Fin 2 := bif b then 1 else 0

@[simp] theorem slot_false : slot false = 0 := rfl

@[simp] theorem slot_true : slot true = 1 := rfl

open Classical in
noncomputable def zero {ι : Type} : Ket ι := fun x => if ∀ q, x q = false then 1 else 0

variable {ι : Type} [DecidableEq ι]

noncomputable def onQubit (U : Matrix (Fin 2) (Fin 2) ℂ) (q : ι) (ψ : Ket ι) : Ket ι := fun x =>
  ∑ b : Bool, U (slot (x q)) (slot b) * ψ (Function.update x q b)

omit [DecidableEq ι] in
/-- An operator where the bits of all controls are set. -/
def controlled (controls : List ι) (f : Ket ι → Ket ι) (ψ : Ket ι) : Ket ι := fun x =>
  if controls.all x then f ψ x else ψ x

def exchange (a b : ι) (ψ : Ket ι) : Ket ι := fun x => ψ (x ∘ Equiv.swap a b)

omit [DecidableEq ι] in
/-- The bits of a list of names as one number, the first name lowest. -/
def gather (x : ι → Bool) : List ι → ℕ
  | [] => 0
  | q :: rest => (x q).toNat + 2 * gather x rest

/-- The assignment with the bits of a list of names replaced by those of a number. -/
def scatter (x : ι → Bool) : List ι → ℕ → ι → Bool
  | [], _ => x
  | q :: rest, l => scatter (Function.update x q (l.testBit 0)) rest (l / 2)

/-- A matrix on a list of names, given by its entries. -/
noncomputable def dense (E : ℕ → ℕ → ℂ) (names : List ι) (ψ : Ket ι) : Ket ι := fun x =>
  ∑ l ∈ Finset.range (2 ^ names.length), E (gather x names) l * ψ (scatter x names l)

/-! ## Gathering and scattering bits -/

omit [DecidableEq ι] in
theorem testBit_of_le {x n p : ℕ} (hx : x < 2 ^ n) (hp : n ≤ p) : x.testBit p = false :=
  Nat.testBit_lt_two_pow (hx.trans_le (Nat.pow_le_pow_right two_pos hp))

omit [DecidableEq ι] in
theorem gather_lt (x : ι → Bool) (names : List ι) : gather x names < 2 ^ names.length := by
  induction names with
  | nil => simp [gather]
  | cons q rest ih =>
    have hb := Bool.toNat_le (x q)
    rw [gather, List.length_cons, pow_succ]
    omega

omit [DecidableEq ι] in
theorem gather_congr {x y : ι → Bool} {names : List ι} (h : ∀ q ∈ names, x q = y q) :
    gather x names = gather y names := by
  induction names with
  | nil => rfl
  | cons q rest ih =>
    rw [gather, gather, h q List.mem_cons_self, ih fun p hp => h p (List.mem_cons_of_mem q hp)]

theorem gather_update {x : ι → Bool} {names : List ι} {q : ι} (hq : q ∉ names) (b : Bool) :
    gather (Function.update x q b) names = gather x names :=
  gather_congr fun _ hp => Function.update_of_ne (ne_of_mem_of_not_mem hp hq) _ _

theorem scatter_of_notMem {x : ι → Bool} {names : List ι} {p : ι} (hp : p ∉ names) (l : ℕ) :
    scatter x names l p = x p := by
  induction names generalizing x l with
  | nil => rfl
  | cons q rest ih =>
    simp only [List.mem_cons, not_or] at hp
    rw [scatter, ih hp.2, Function.update_of_ne hp.1]

theorem scatter_gather {x : ι → Bool} {names : List ι} : scatter x names (gather x names) = x := by
  induction names with
  | nil => rfl
  | cons q rest ih =>
    have h0 : (gather x (q :: rest)).testBit 0 = x q := by cases h : x q <;> simp [gather, h]
    have h1 : gather x (q :: rest) / 2 = gather x rest := by
      cases h : x q <;> simp [gather, h]
      omega
    rw [scatter, h0, h1, Function.update_eq_self, ih]

theorem gather_scatter (x : ι → Bool) {names : List ι} (hn : names.Nodup) {l : ℕ}
    (hl : l < 2 ^ names.length) : gather (scatter x names l) names = l := by
  induction names generalizing x l with
  | nil => simp_all [gather]
  | cons q rest ih =>
    obtain ⟨hq, hrest⟩ := List.nodup_cons.mp hn
    have hl2 : l / 2 < 2 ^ rest.length := by rw [List.length_cons, pow_succ] at hl; omega
    rw [gather, scatter, ih _ hrest hl2, scatter_of_notMem hq, Function.update_self,
      Nat.testBit_zero]
    rcases Nat.mod_two_eq_zero_or_one l with h | h <;> simp [h] <;> omega

/-! ## Dense matrices on lists of names -/

/-- The part of a matrix with given bits of the first name in row and column. -/
def block (E : ℕ → ℕ → ℂ) (i j : Bool) : ℕ → ℕ → ℂ :=
  fun r c => E (i.toNat + 2 * r) (j.toNat + 2 * c)

theorem sum_range_two_mul (f : ℕ → ℂ) (m : ℕ) :
    ∑ l ∈ Finset.range (2 * m), f l = ∑ l ∈ Finset.range m, (f (2 * l) + f (1 + 2 * l)) := by
  induction m with
  | zero => simp
  | succ m ih =>
    rw [Nat.mul_succ, Finset.sum_range_succ, Finset.sum_range_succ, ih, Finset.sum_range_succ,
      add_assoc, Nat.add_comm 1]

@[simp] theorem dense_nil (E : ℕ → ℕ → ℂ) (ψ : Ket ι) (x : ι → Bool) :
    dense E [] ψ x = E 0 0 * ψ x := by
  simp [dense, gather, scatter]

theorem dense_cons (E : ℕ → ℕ → ℂ) {q : ι} {rest : List ι} (hq : q ∉ rest) (ψ : Ket ι)
    (x : ι → Bool) :
    dense E (q :: rest) ψ x =
      ∑ b : Bool, dense (block E (x q) b) rest ψ (Function.update x q b) := by
  simp only [Fintype.sum_bool, dense, gather_update hq, List.length_cons, pow_succ']
  rw [sum_range_two_mul, ← Finset.sum_add_distrib]
  apply Finset.sum_congr rfl
  intro l _
  have h0 : (2 * l).testBit 0 = false := by simp
  have h1 : (1 + 2 * l).testBit 0 = true := by simp
  have d0 : 2 * l / 2 = l := by omega
  have d1 : (1 + 2 * l) / 2 = l := by omega
  simp only [gather, scatter, block, h0, h1, d0, d1, Bool.toNat_false, Bool.toNat_true, zero_add]
  rw [add_comm]

theorem dense_congr {E F : ℕ → ℕ → ℂ} {names : List ι}
    (h : ∀ r < 2 ^ names.length, ∀ c < 2 ^ names.length, E r c = F r c) (ψ : Ket ι) :
    dense E names ψ = dense F names ψ := by
  funext x
  apply Finset.sum_congr rfl
  intro l hl
  rw [h _ (gather_lt x names) l (Finset.mem_range.mp hl)]

theorem dense_zero (names : List ι) (ψ : Ket ι) : dense (fun _ _ => 0) names ψ = 0 := by
  funext x
  simp [dense]

def identity : ℕ → ℕ → ℂ := fun r c => if c = r then 1 else 0

theorem dense_identity (names : List ι) (ψ : Ket ι) : dense identity names ψ = ψ := by
  funext x
  have h := Finset.mem_range.mpr (gather_lt x names)
  simp only [dense, identity, ite_mul, one_mul, zero_mul]
  rw [Finset.sum_ite_eq' _ (gather x names), if_pos h, scatter_gather]

theorem dense_cons_of_blocks {E F : ℕ → ℕ → ℂ} {q : ι} {rest : List ι} (hq : q ∉ rest)
    (h00 : block E false false = identity) (h01 : block E false true = fun _ _ => 0)
    (h10 : block E true false = fun _ _ => 0) (h11 : block E true true = F) (ψ : Ket ι) :
    dense E (q :: rest) ψ = controlled [q] (dense F rest) ψ := by
  funext x
  rw [dense_cons E hq, Fintype.sum_bool]
  cases hx : x q with
  | false =>
    have hu : Function.update x q false = x := by rw [← hx, Function.update_eq_self]
    rw [h00, h01, dense_identity, dense_zero, hu]
    simp [controlled, hx]
  | true =>
    have hu : Function.update x q true = x := by rw [← hx, Function.update_eq_self]
    rw [h10, h11, dense_zero, hu]
    simp [controlled, hx]

theorem dense_singleton (E : ℕ → ℕ → ℂ) (q : ι) (ψ : Ket ι) :
    dense E [q] ψ = onQubit (Matrix.of fun i j => E i j) q ψ := by
  funext x
  rw [dense_cons E (by simp), onQubit]
  apply Finset.sum_congr rfl
  intro b _
  cases hx : x q <;> cases b <;> simp [block]

/-! ## Operators on names -/

theorem onQubit_onQubit (U V : Matrix (Fin 2) (Fin 2) ℂ) (q : ι) (ψ : Ket ι) :
    onQubit U q (onQubit V q ψ) = onQubit (U * V) q ψ := by
  funext x
  simp only [onQubit, Fintype.sum_bool, Function.update_self, Function.update_idem,
    Matrix.mul_apply, Fin.sum_univ_two, slot_true, slot_false]
  ring

theorem onQubit_one (q : ι) (ψ : Ket ι) : onQubit 1 q ψ = ψ := by
  funext x
  have hu : Function.update x q (x q) = x := Function.update_eq_self q x
  cases hx : x q <;> rw [hx] at hu <;> simp [onQubit, Matrix.one_apply, hx, hu]

theorem onQubit_diagonal (a b : ℂ) (q : ι) (ψ : Ket ι) (x : ι → Bool) :
    onQubit !![a, 0; 0, b] q ψ x = (if x q then b else a) * ψ x := by
  have hself : Function.update x q (x q) = x := Function.update_eq_self q x
  cases hx : x q <;> rw [hx] at hself <;> simp [onQubit, hx, hself]

theorem onQubit_controlled_onQubit (U V W : Matrix (Fin 2) (Fin 2) ℂ) (hUW : U * W = 1) {c q : ι}
    (hcq : c ≠ q) (ψ : Ket ι) :
    onQubit U q (controlled [c] (onQubit V q) (onQubit W q ψ)) =
      controlled [c] (onQubit (U * V * W) q) ψ := by
  have hc (x : ι → Bool) (b : Bool) : Function.update x q b c = x c := Function.update_of_ne hcq _ _
  funext x
  cases hx : x c with
  | false =>
    have h : onQubit U q (onQubit W q ψ) x = ψ x := by rw [onQubit_onQubit, hUW, onQubit_one]
    simpa [controlled, onQubit, hc, hx] using h
  | true =>
    have h : onQubit U q (onQubit V q (onQubit W q ψ)) x = onQubit (U * V * W) q ψ x := by
      rw [onQubit_onQubit, onQubit_onQubit, mul_assoc]
    simpa [controlled, onQubit, hc, hx] using h

omit [DecidableEq ι] in
theorem controlled_cons (q : ι) (rest : List ι) (f : Ket ι → Ket ι) (ψ : Ket ι) :
    controlled [q] (controlled rest f) ψ = controlled (q :: rest) f ψ := by
  funext x
  cases hx : x q <;> simp [controlled, hx]

omit [DecidableEq ι] in
theorem controlled_nil (f : Ket ι → Ket ι) (ψ : Ket ι) : controlled [] f ψ = f ψ := by
  funext x
  simp [controlled]

/-! ## Other names -/

omit [DecidableEq ι] in
def relabel {κ : Type} (σ : ι → κ) (ψ : Ket ι) : Ket κ := fun y => ψ (y ∘ σ)

section Relabel

variable {κ : Type} [DecidableEq κ] {σ : ι → κ}

omit [DecidableEq ι] [DecidableEq κ] in
theorem relabel_zero (hσ : Function.Surjective σ) : relabel σ zero = zero := by
  classical
  funext y
  exact if_congr (hσ.forall (p := fun p => y p = false)).symm rfl rfl

theorem relabel_onQubit (hσ : Function.Injective σ) (U : Matrix (Fin 2) (Fin 2) ℂ) (q : ι)
    (ψ : Ket ι) : relabel σ (onQubit U q ψ) = onQubit U (σ q) (relabel σ ψ) := by
  funext y
  simp only [relabel, onQubit, Function.comp_apply]
  apply Finset.sum_congr rfl
  intro b _
  rw [Function.update_comp_eq_of_injective y hσ]

theorem relabel_exchange (hσ : Function.Injective σ) (a b : ι) (ψ : Ket ι) :
    relabel σ (exchange a b ψ) = exchange (σ a) (σ b) (relabel σ ψ) := by
  funext y
  simp only [relabel, exchange]
  congr 1
  funext q
  simp only [Function.comp_apply, Equiv.swap_apply_def]
  split_ifs <;> simp_all [hσ.eq_iff]

omit [DecidableEq ι] [DecidableEq κ] in
theorem relabel_controlled (controls : List ι) {f : Ket ι → Ket ι} {g : Ket κ → Ket κ}
    (h : ∀ ψ, relabel σ (f ψ) = g (relabel σ ψ)) (ψ : Ket ι) :
    relabel σ (controlled controls f ψ) = controlled (controls.map σ) g (relabel σ ψ) := by
  funext y
  have hy := congrFun (h ψ) y
  simp only [relabel] at hy
  simp only [relabel, controlled, List.all_map, hy]

end Relabel

end Ket

end KetSim

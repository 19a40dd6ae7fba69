import Mathlib
import KetSim.Engine.Dense
import KetSim.Proofs.Ket

/-! # Bits of an index

The engine names the entries of a group by a base index with all target bits
clear and by offsets that carry the bits of a local index. On the level of bits
this is gathering and scattering.
-/
namespace KetSim.Engine

/-- An index with all target bits clear. -/
def cleared (targets : List ℕ) (x : ℕ) : ℕ := x ^^^ (x &&& targetMask targets)

theorem testBit_foldl_lor (targets : List ℕ) (acc p : ℕ) :
    (targets.foldl (fun acc q => acc ||| 2 ^ q) acc).testBit p =
      (acc.testBit p || decide (p ∈ targets)) := by
  induction targets generalizing acc with
  | nil => simp
  | cons q rest ih =>
    rw [List.foldl_cons, ih, Nat.testBit_or, Nat.testBit_two_pow]
    grind

@[simp] theorem testBit_targetMask (targets : List ℕ) (p : ℕ) :
    (targetMask targets).testBit p = decide (p ∈ targets) := by
  simp [targetMask, testBit_foldl_lor]

@[simp] theorem testBit_cleared (targets : List ℕ) (x p : ℕ) :
    (cleared targets x).testBit p = (x.testBit p && decide (p ∉ targets)) := by
  simp only [cleared, Nat.testBit_xor, Nat.testBit_and, testBit_targetMask]
  by_cases hp : p ∈ targets <;> cases x.testBit p <;> simp [hp]

@[simp] theorem cleared_cleared (targets : List ℕ) (x : ℕ) :
    cleared targets (cleared targets x) = cleared targets x := by
  apply Nat.eq_of_testBit_eq
  intro p
  by_cases hp : p ∈ targets <;> simp [hp]

theorem and_targetMask_eq_zero {targets : List ℕ} {x : ℕ} :
    x &&& targetMask targets = 0 ↔ cleared targets x = x := by
  constructor
  · intro h
    rw [cleared, h, Nat.xor_zero]
  · intro h
    apply Nat.eq_of_testBit_eq
    intro p
    have hp := congrArg (·.testBit p) h
    simp only [testBit_cleared] at hp
    rw [Nat.testBit_and, testBit_targetMask, Nat.zero_testBit]
    by_cases hm : p ∈ targets <;> simp_all

theorem cleared_le (targets : List ℕ) (x : ℕ) : cleared targets x ≤ x := by
  have h : cleared targets x ||| (x &&& targetMask targets) = x := by
    apply Nat.eq_of_testBit_eq
    intro p
    rw [Nat.testBit_or, testBit_cleared, Nat.testBit_and, testBit_targetMask]
    by_cases hp : p ∈ targets <;> simp [hp]
  calc cleared targets x ≤ cleared targets x ||| (x &&& targetMask targets) := Nat.left_le_or
    _ = x := h

/-! ## Deposited bits -/

theorem testBit_foldl_deposit (l : ℕ) (pairs : List (ℕ × ℕ)) (acc p : ℕ) :
    (pairs.foldl (fun acc (q, k) => if l.testBit k then acc ||| 2 ^ q else acc) acc).testBit p =
      (acc.testBit p || pairs.any fun (q, k) => decide (q = p) && l.testBit k) := by
  induction pairs generalizing acc with
  | nil => simp
  | cons pair rest ih =>
    rw [List.foldl_cons, ih, List.any_cons]
    cases h : l.testBit pair.2 <;> simp [h, Nat.testBit_two_pow, Bool.or_assoc]

theorem testBit_deposit_cons (q : ℕ) (rest : List ℕ) (l p : ℕ) :
    (deposit (q :: rest) l).testBit p =
      ((decide (q = p) && l.testBit 0) || (deposit rest (l / 2)).testBit p) := by
  simp only [deposit, testBit_foldl_deposit, Nat.zero_testBit, Bool.false_or, List.zipIdx_cons,
    List.any_cons, List.zipIdx_succ, List.any_map, Nat.zero_add, Function.comp_def,
    Nat.testBit_succ]

theorem testBit_deposit_of_notMem {targets : List ℕ} {p : ℕ} (hp : p ∉ targets) (l : ℕ) :
    (deposit targets l).testBit p = false := by
  induction targets generalizing l with
  | nil => simp [deposit]
  | cons q rest ih =>
    simp only [List.mem_cons, not_or] at hp
    rw [testBit_deposit_cons, ih hp.2]
    simp [Ne.symm hp.1]

theorem scatter_eq_deposit {targets : List ℕ} (ht : targets.Nodup) (y : ℕ → Bool) (l p : ℕ) :
    Ket.scatter y targets l p =
      if p ∈ targets then (deposit targets l).testBit p else y p := by
  induction targets generalizing y l with
  | nil => simp [Ket.scatter]
  | cons q rest ih =>
    obtain ⟨hq, hrest⟩ := List.nodup_cons.mp ht
    rw [Ket.scatter, ih hrest, testBit_deposit_cons]
    by_cases hpq : p = q
    · subst hpq
      simp [hq, testBit_deposit_of_notMem hq]
    · simp [hpq, Ne.symm hpq]

/-! ## Groups of indices -/

theorem mul_add_div_of_lt {n c : ℕ} (hc : c < n) (k : ℕ) : (n * k + c) / n = k := by
  have hpos : 0 < n := by omega
  rw [Nat.mul_add_div hpos, Nat.div_eq_of_lt hc, Nat.add_zero]

theorem mul_add_div_right_of_lt {n c : ℕ} (hc : c < n) (k : ℕ) : (k * n + c) / n = k := by
  rw [Nat.mul_comm, mul_add_div_of_lt hc]

/-- An entry of a row lies before the end of the rows. -/
theorem mul_add_lt_mul {r rows c dim : ℕ} (hr : r < rows) (hc : c < dim) :
    r * dim + c < rows * dim := by
  calc r * dim + c < r * dim + dim := by omega
    _ = (r + 1) * dim := by rw [Nat.add_mul, Nat.one_mul]
    _ ≤ rows * dim := Nat.mul_le_mul_right dim hr

/-- The index that carries the bits of a local index at the targets and those of `x` elsewhere. -/
def member (targets : List ℕ) (x l : ℕ) : ℕ := cleared targets x ||| deposit targets l

theorem testBit_member {targets : List ℕ} (ht : targets.Nodup) (x l : ℕ) :
    (member targets x l).testBit = Ket.scatter x.testBit targets l := by
  funext p
  rw [member, Nat.testBit_or, testBit_cleared, scatter_eq_deposit ht]
  by_cases hp : p ∈ targets
  · simp [hp]
  · simp [hp, testBit_deposit_of_notMem hp]

@[simp] theorem cleared_member (targets : List ℕ) (x l : ℕ) :
    cleared targets (member targets x l) = cleared targets x := by
  apply Nat.eq_of_testBit_eq
  intro p
  rw [testBit_cleared, member, Nat.testBit_or, testBit_cleared]
  by_cases hp : p ∈ targets
  · simp [hp]
  · simp [hp, testBit_deposit_of_notMem hp]

theorem member_gather {targets : List ℕ} (ht : targets.Nodup) (x : ℕ) :
    member targets x (Ket.gather x.testBit targets) = x := by
  apply Nat.eq_of_testBit_eq
  intro p
  rw [testBit_member ht, Ket.scatter_gather]

theorem gather_member {targets : List ℕ} (ht : targets.Nodup) (x : ℕ) {l : ℕ}
    (hl : l < 2 ^ targets.length) : Ket.gather (member targets x l).testBit targets = l := by
  rw [testBit_member ht, Ket.gather_scatter _ ht hl]

theorem member_lt {targets : List ℕ} (ht : targets.Nodup) {n : ℕ} (hn : ∀ q ∈ targets, q < n)
    {x : ℕ} (hx : x < 2 ^ n) (l : ℕ) : member targets x l < 2 ^ n := by
  apply Nat.lt_pow_two_of_testBit
  intro p hp
  have hpt : p ∉ targets := fun h => absurd (hn p h) (by omega)
  rw [testBit_member ht, Ket.scatter_of_notMem hpt]
  exact Ket.testBit_of_le hx hp

end KetSim.Engine

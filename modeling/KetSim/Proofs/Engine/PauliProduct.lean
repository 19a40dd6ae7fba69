import KetSim.Proofs.Engine.Observable
import KetSim.Proofs.Lookup
import KetSim.Proofs.Lowering.Image

/-! # Pauli products

A Pauli product is the tensor product of the matrices of its factors, with the
identity on the qubits that have none. The gates of its factors multiply by this
matrix in any order. Its masks give the entries: one in each column, in the row
whose index differs in the flipped bits.
-/
namespace KetSim.Engine

open scoped Matrix

/-! ## Factors -/

namespace Axis

def matrix : Axis → OneQubit
  | x => OneQubit.pauliX
  | y => OneQubit.pauliY
  | z => OneQubit.pauliZ

/-- The gate that applies a factor. -/
def gate {α : Type} (a : Axis) (q : ℕ) : Gate α :=
  match a with
  | x => .x q
  | y => .y q
  | z => .z q

theorem action_gate (a : Axis) (q : ℕ) : (a.gate q : Gate ℝ).action = Ket.onQubit a.matrix q := by
  cases a with
  | x => exact Gate.action_x q
  | y => exact Gate.action_y q
  | z => exact Gate.action_z q

theorem fits_gate {α : Type} (a : Axis) {q n : ℕ} (hq : q < n) : (a.gate q : Gate α).Fits n := by
  cases a <;> exact ⟨List.nodup_singleton q, fun p hp => List.mem_singleton.mp hp ▸ hq⟩

/-- Whether a factor exchanges the two basis states. -/
def flips : Axis → Bool
  | x | y => true
  | z => false

/-- The entry of a factor in the column of a bit. -/
def weight (a : Axis) (b : Bool) : ℂ :=
  match a with
  | x => 1
  | y => if b then -Complex.I else Complex.I
  | z => if b then -1 else 1

theorem matrix_slot (a : Axis) (r c : Bool) :
    a.matrix (Ket.slot r) (Ket.slot c) = if r = (c ^^ a.flips) then a.weight c else 0 := by
  cases a <;> cases r <;> cases c <;>
    simp [matrix, weight, flips, OneQubit.pauliX, OneQubit.pauliY, OneQubit.pauliZ]

end Axis

/-! ## Tensor products -/

/-- The entry of a tensor product of matrices on the first `n` qubits. -/
noncomputable def tensorEntry (F : ℕ → OneQubit) (n : ℕ) (x y : ℕ → Bool) : ℂ :=
  ∏ q ∈ Finset.range n, F q (Ket.slot (x q)) (Ket.slot (y q))

/-- The part of an entry that all qubits but one contribute. -/
noncomputable def tensorRest (F : ℕ → OneQubit) (n q : ℕ) (x y : ℕ → Bool) : ℂ :=
  ∏ p ∈ (Finset.range n).erase q, F p (Ket.slot (x p)) (Ket.slot (y p))

section Tensor

variable {F : ℕ → OneQubit} {n q : ℕ} (x y : ℕ → Bool)

theorem tensorEntry_eq (F : ℕ → OneQubit) (hq : q < n) : tensorEntry F n x y =
    F q (Ket.slot (x q)) (Ket.slot (y q)) * tensorRest F n q x y :=
  (Finset.mul_prod_erase _ _ (Finset.mem_range.mpr hq)).symm

theorem tensorRest_congr {x x' : ℕ → Bool} {G : ℕ → OneQubit} (hF : ∀ p, p ≠ q → F p = G p)
    (hx : ∀ p, p ≠ q → x p = x' p) : tensorRest F n q x y = tensorRest G n q x' y := by
  apply Finset.prod_congr rfl
  intro p hp
  have hne := Finset.ne_of_mem_erase hp
  rw [hF p hne, hx p hne]

theorem tensorEntry_update_matrix (hq : q < n) (A : OneQubit) :
    tensorEntry (Function.update F q A) n x y =
      A (Ket.slot (x q)) (Ket.slot (y q)) * tensorRest F n q x y := by
  rw [tensorEntry_eq x y _ hq, Function.update_self,
    tensorRest_congr y (fun p hp => Function.update_of_ne hp A F) fun p _ => rfl]

theorem tensorEntry_update_row (hq : q < n) (b : Bool) :
    tensorEntry F n (Function.update x q b) y =
      F q (Ket.slot b) (Ket.slot (y q)) * tensorRest F n q x y := by
  rw [tensorEntry_eq _ y F hq, Function.update_self,
    tensorRest_congr y (fun p _ => rfl) fun p hp => Function.update_of_ne hp b x]

theorem tensorRest_eq (hF : F q = 1) (hq : q < n) :
    tensorRest F n q x y = tensorEntry F n (Function.update x q (y q)) y := by
  rw [tensorEntry_update_row x y hq, hF, Matrix.one_apply_eq, one_mul]

end Tensor

theorem tensorEntry_one {n r c : ℕ} (hr : r < 2 ^ n) (hc : c < 2 ^ n) :
    tensorEntry (fun _ => 1) n r.testBit c.testBit = if r = c then 1 else 0 := by
  have hslot (a b : Bool) : (1 : OneQubit) (Ket.slot a) (Ket.slot b) = if a = b then 1 else 0 := by
    cases a <;> cases b <;> simp [Matrix.one_apply]
  have hbits : (∀ q ∈ Finset.range n, r.testBit q = c.testBit q) ↔ r = c := by
    refine ⟨fun h => Nat.eq_of_testBit_eq fun q => ?_, fun h q _ => h ▸ rfl⟩
    by_cases hq : q < n
    · exact h q (Finset.mem_range.mpr hq)
    · rw [Ket.testBit_of_le hr (not_lt.mp hq), Ket.testBit_of_le hc (not_lt.mp hq)]
  simp only [tensorEntry, hslot, Finset.prod_ite_zero, Finset.prod_const_one, hbits]

/-- A tensor product applied to a ket on `n` qubits. -/
noncomputable def tensorMul (F : ℕ → OneQubit) (n : ℕ) (φ : Ket ℕ) : Ket ℕ := fun x =>
  ∑ c ∈ Finset.range (2 ^ n), tensorEntry F n x c.testBit * φ c.testBit

theorem onQubit_tensorMul (F : ℕ → OneQubit) {n q : ℕ} (hq : q < n) (A : OneQubit) (φ : Ket ℕ) :
    Ket.onQubit A q (tensorMul F n φ) = tensorMul (Function.update F q (A * F q)) n φ := by
  funext x
  simp only [Ket.onQubit, tensorMul, Fintype.sum_bool, Finset.mul_sum, ← Finset.sum_add_distrib,
    tensorEntry_update_matrix x _ hq, tensorEntry_update_row x _ hq, Matrix.mul_apply,
    Fin.sum_univ_two, Ket.slot_true, Ket.slot_false]
  apply Finset.sum_congr rfl
  intro c _
  ring

theorem tensorMul_one {n : ℕ} (φ : Ket ℕ) {x : ℕ} (hx : x < 2 ^ n) :
    tensorMul (fun _ => 1) n φ x.testBit = φ x.testBit := by
  have hsum : tensorMul (fun _ => 1) n φ x.testBit =
      ∑ c ∈ Finset.range (2 ^ n), if x = c then φ c.testBit else 0 := by
    apply Finset.sum_congr rfl
    intro c hc
    rw [tensorEntry_one hx (Finset.mem_range.mp hc), ite_mul, one_mul, zero_mul]
  rw [hsum, Finset.sum_ite_eq, if_pos (Finset.mem_range.mpr hx)]

/-! ## Products of factors -/

namespace Placed

variable {m n : ℕ} {ops ops' : List (ℕ × Axis)}

theorem mono (h : Placed m ops) (hmn : m ≤ n) : Placed n ops :=
  ⟨fun op hop => (h.lt op hop).trans_le hmn, h.nodup⟩

theorem perm (h : Placed n ops) (hp : ops'.Perm ops) : Placed n ops' :=
  ⟨fun op hop => h.lt op (hp.mem_iff.mp hop), (hp.map _).nodup_iff.mpr h.nodup⟩

theorem of_concat {q : ℕ} {a : Axis} (h : Placed n (ops ++ [(q, a)])) :
    Placed n ops ∧ q < n ∧ q ∉ ops.map (·.1) := by
  obtain ⟨hlt, hn⟩ := h
  obtain ⟨hrest, hq⟩ := List.forall_mem_append.mp hlt
  rw [List.map_append, List.nodup_append] at hn
  exact ⟨⟨hrest, hn.1⟩, hq (q, a) (List.mem_singleton.mpr rfl),
    fun hmem => hn.2.2 q hmem q (List.mem_singleton.mpr rfl) rfl⟩

end Placed

/-- The matrix on a qubit: that of its factor, or the identity. -/
noncomputable def factorAt (ops : List (ℕ × Axis)) (q : ℕ) : OneQubit :=
  ((ops.lookup q).map Axis.matrix).getD 1

theorem factorAt_of_notMem {ops : List (ℕ × Axis)} {q : ℕ} (hq : q ∉ ops.map (·.1)) :
    factorAt ops q = 1 := by
  rw [factorAt, lookup_eq_none.mpr hq]
  rfl

theorem factorAt_concat {ops : List (ℕ × Axis)} {q : ℕ} (hq : q ∉ ops.map (·.1)) (a : Axis) :
    factorAt (ops ++ [(q, a)]) = Function.update (factorAt ops) q a.matrix := by
  funext p
  rw [factorAt, lookup_concat (lookup_eq_none.mpr hq) a p, Function.update_apply]
  split
  · rfl
  · rfl

theorem factorAt_perm {ops ops' : List (ℕ × Axis)} (h : ops.Perm ops')
    (hn : (ops.map (·.1)).Nodup) : factorAt ops = factorAt ops' := by
  funext q
  rw [factorAt, lookup_perm h hn, factorAt]

def gatesOf {α : Type} (ops : List (ℕ × Axis)) : List (Gate α) := ops.map fun op => op.2.gate op.1

/-- Applying the factors one after another multiplies by their tensor product. -/
theorem foldl_gatesOf {n : ℕ} {ops : List (ℕ × Axis)} (h : Placed n ops) (φ : Ket ℕ) :
    (gatesOf ops).foldl (fun φ g => g.action φ) (tensorMul (fun _ => 1) n φ) =
      tensorMul (factorAt ops) n φ := by
  induction ops using List.reverseRecOn with
  | nil => rfl
  | append_singleton rest op ih =>
    obtain ⟨hrest, hq, hfresh⟩ := h.of_concat
    rw [gatesOf, List.map_append, List.foldl_append, ← gatesOf, ih hrest, List.map_singleton,
      List.foldl_cons, List.foldl_nil, Axis.action_gate, onQubit_tensorMul _ hq,
      factorAt_of_notMem hfresh, mul_one, ← factorAt_concat hfresh]

/-! ## Masks -/

/-- The bit that a factor flips. -/
def Axis.bit (a : Axis) (q : ℕ) : ℕ := if a.flips then 2 ^ q else 0

theorem Axis.bit_lt (a : Axis) {q n : ℕ} (hq : q < n) : a.bit q < 2 ^ n := by
  unfold bit
  split
  · exact Nat.pow_lt_pow_right (by omega) hq
  · exact Nat.two_pow_pos n

theorem testBit_xor_bit (x q : ℕ) (a : Axis) :
    (x ^^^ a.bit q).testBit = Function.update x.testBit q (x.testBit q ^^ a.flips) := by
  cases a with
  | x | y => simpa [Axis.bit, Axis.flips] using testBit_xor_two_pow x q
  | z => simp [Axis.bit, Axis.flips]

theorem Masks.flip_add {m : Masks} {q : ℕ} (h : m.flip.testBit q = false) (a : Axis) :
    (m.add (q, a)).flip = m.flip ^^^ a.bit q := by
  cases a with
  | x | y => exact lor_two_pow_of_clear h
  | z => exact (Nat.xor_zero m.flip).symm

/-- A sign on one more bit. -/
theorem neg_one_pow_lor {s q : ℕ} (h : s.testBit q = false) (x : ℕ) :
    ((-1) ^ bitCount (x &&& (s ||| 2 ^ q)) : ℂ) =
      (if x.testBit q then -1 else 1) * (-1) ^ bitCount (x &&& s) := by
  cases hx : x.testBit q with
  | false =>
    rw [Nat.and_comm, lor_two_pow_and hx, Nat.and_comm]
    simp
  | true =>
    have hsplit : x &&& (s ||| 2 ^ q) = (x &&& s) ^^^ 2 ^ q := by
      apply Nat.eq_of_testBit_eq
      intro p
      by_cases hp : q = p
      · subst hp
        simp [h, hx]
      · simp [hp]
    have hcount := bitCount_xor_mod_two (x &&& s) (2 ^ q)
    rw [bitCount_two_pow] at hcount
    rw [hsplit, neg_one_pow_eq_pow_mod_two, hcount, ← neg_one_pow_eq_pow_mod_two, pow_succ,
      mul_comm]
    rfl

theorem Masks.phase_add {m : Masks} {q : ℕ} (h : m.sign.testBit q = false) (a : Axis) (x : ℕ) :
    ((m.add (q, a)).phase x : Cplx ℝ).toComplex =
      a.weight (x.testBit q) * (m.phase x : Cplx ℝ).toComplex := by
  rw [toComplex_phase, toComplex_phase]
  cases a with
  | x => simp [add, Axis.weight]
  | y =>
    simp only [add, Axis.weight, neg_one_pow_lor h, pow_succ]
    split <;> ring
  | z =>
    simp only [add, Axis.weight, neg_one_pow_lor h]
    ring

/-- The masks of a product give its entries. -/
theorem tensorEntry_factorAt {n : ℕ} {ops : List (ℕ × Axis)} (h : Placed n ops) {r c : ℕ}
    (hr : r < 2 ^ n) (hc : c < 2 ^ n) :
    tensorEntry (factorAt ops) n r.testBit c.testBit =
      if r = c ^^^ (ops.foldl Masks.add {}).flip then
        ((ops.foldl Masks.add {}).phase c : Cplx ℝ).toComplex else 0 := by
  induction ops using List.reverseRecOn generalizing r with
  | nil =>
    have hnone : bitCount 0 = 0 := rfl
    have hone : (({} : Masks).phase c : Cplx ℝ).toComplex = 1 := by
      simp [Masks.toComplex_phase, hnone]
    have hindex : c ^^^ ({} : Masks).flip = c := Nat.xor_zero c
    rw [List.foldl_nil, hone, hindex]
    exact tensorEntry_one hr hc
  | append_singleton rest op ih =>
    obtain ⟨q, a⟩ := op
    obtain ⟨hrest, hq, hfresh⟩ := h.of_concat
    have hclear := Masks.tracks_foldl hrest.nodup
    have hflip := hclear.flip q (mt List.mem_reverse.mp hfresh)
    have hsign := hclear.sign q (mt List.mem_reverse.mp hfresh)
    rw [factorAt_concat hfresh, tensorEntry_update_matrix _ _ hq, Axis.matrix_slot,
      tensorRest_eq _ _ (factorAt_of_notMem hfresh) hq, List.foldl_append, List.foldl_cons,
      List.foldl_nil, Masks.flip_add hflip, Masks.phase_add hsign]
    by_cases hb : r.testBit q = (c.testBit q ^^ a.flips)
    · have hrow : Function.update r.testBit q (c.testBit q) = (r ^^^ a.bit q).testBit := by
        rw [testBit_xor_bit, hb]
        simp
      have hindex (k : ℕ) : r ^^^ a.bit q = c ^^^ k ↔ r = c ^^^ (k ^^^ a.bit q) := by
        rw [← Nat.xor_assoc]
        constructor
        · intro heq
          rw [← heq, Nat.xor_xor_cancel_right]
        · rintro rfl
          exact Nat.xor_xor_cancel_right _ _
      rw [if_pos hb, hrow, ih hrest (Nat.xor_lt_two_pow hr (a.bit_lt hq)),
        if_congr (hindex _) rfl rfl, mul_ite, mul_zero]
    · -- the bit of the new factor sets the rows apart
      have hne : r ≠ c ^^^ ((rest.foldl Masks.add {}).flip ^^^ a.bit q) := by
        rintro rfl
        apply hb
        rw [← Nat.xor_assoc, testBit_xor_bit, Function.update_self, Nat.testBit_xor, hflip,
          Bool.xor_false]
      rw [if_neg hb, if_neg hne, zero_mul]

/-! ## Operators -/

/-- The operator of a product on a register of `n` qubits. -/
noncomputable def Term.operator (t : Term ℝ) (n : ℕ) : Matrix (Fin (2 ^ n)) (Fin (2 ^ n)) ℂ :=
  Matrix.of fun r c => tensorEntry (factorAt t.ops) n r.val.testBit c.val.testBit

/-- A row times the operator of a product: each column reads one entry. -/
theorem Term.vecMul_operator {t : Term ℝ} {n : ℕ} (h : Placed n t.ops) (f : ℕ → ℂ)
    (c : Fin (2 ^ n)) : Matrix.vecMul (fun r : Fin (2 ^ n) => f r) (t.operator n) c =
      f (c ^^^ t.masks.flip) * (t.masks.phase c : Cplx ℝ).toComplex := by
  have hlt : c.val ^^^ t.masks.flip < 2 ^ n :=
    Nat.xor_lt_two_pow c.isLt (flip_foldl_add h.lt (Nat.two_pow_pos n))
  have hterm (r : Fin (2 ^ n)) : f r * t.operator n r c =
      if r = ⟨c.val ^^^ t.masks.flip, hlt⟩ then f r * (t.masks.phase c : Cplx ℝ).toComplex
      else 0 := by
    rw [operator, Matrix.of_apply, tensorEntry_factorAt h r.isLt c.isLt, mul_ite, mul_zero]
    exact if_congr (Fin.ext_iff (b := ⟨c.val ^^^ t.masks.flip, hlt⟩)).symm rfl rfl
  rw [Matrix.vecMul, dotProduct, Finset.sum_congr rfl fun r _ => hterm r, Finset.sum_ite_eq',
    if_pos (Finset.mem_univ _)]

/-! ## Values -/

noncomputable def StateVector.column (s : StateVector ℝ) (n : ℕ) : Fin (2 ^ n) → ℂ := fun x =>
  (s.amplitude x).toComplex

noncomputable def DensityMatrix.matrix (d : DensityMatrix ℝ) (n : ℕ) :
    Matrix (Fin (2 ^ n)) (Fin (2 ^ n)) ℂ :=
  Matrix.of fun r c => (d.get r c).toComplex

/-- The value of a product in a state is the inner product with the image under its operator. -/
theorem StateVector.pauliValue_eq {s : StateVector ℝ} {n : ℕ} (hn : s.numQubits = n)
    (hs : s.amplitudes.size = 2 ^ n) {t : Term ℝ} (h : Placed n t.ops) :
    (s.pauliValue t.masks).toComplex =
      star (s.column n) ⬝ᵥ t.operator n *ᵥ s.column n := by
  subst hn
  have hrow (c : Fin (2 ^ s.numQubits)) :
      (star (s.column s.numQubits) ᵥ* t.operator s.numQubits) c =
        starRingEnd ℂ (s.amplitude (c ^^^ t.masks.flip)).toComplex *
          (t.masks.phase c : Cplx ℝ).toComplex :=
    t.vecMul_operator h (fun r => starRingEnd ℂ (s.amplitude r).toComplex) c
  rw [toComplex_pauliValue hs, Finset.sum_range, Matrix.dotProduct_mulVec, dotProduct]
  exact Finset.sum_congr rfl fun c _ => by rw [hrow, column, mul_right_comm]

/-- The value of a product in a density matrix is the trace of the product with its operator. -/
theorem DensityMatrix.pauliValue_eq {d : DensityMatrix ℝ} {n : ℕ} (hn : d.numQubits = n)
    {t : Term ℝ} (h : Placed n t.ops) :
    (d.pauliValue t.masks).toComplex = (d.matrix n * t.operator n).trace := by
  subst hn
  have hrow (r : Fin (2 ^ d.numQubits)) : (d.matrix d.numQubits * t.operator d.numQubits) r r =
      (d.get r (r ^^^ t.masks.flip)).toComplex * (t.masks.phase r : Cplx ℝ).toComplex := by
    rw [Matrix.mul_apply_eq_vecMul]
    exact t.vecMul_operator h (fun c => (d.get r c).toComplex) r
  rw [toComplex_pauliValue, Finset.sum_range, Matrix.trace]
  exact Finset.sum_congr rfl fun r _ => (hrow r).symm

end KetSim.Engine

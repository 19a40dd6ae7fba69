import Mathlib
import KetSim.Engine.Matrix
import KetSim.Proofs.Engine.Chunk
import KetSim.Proofs.Exact

/-! # The action of a gate

In exact arithmetic a buffer shows a ket over the bit positions of its indices,
and the dense kernel acts on it as the matrix does on the target bits. The
action of a gate is that of its dense matrix; under controls and for exchanges
it has the expected closed form.
-/
namespace KetSim.Engine

/-- A buffer shows a ket if the entry at each index is the amplitude of the bits of the index. -/
structure Shows (n : ℕ) (buffer : Array (Cplx ℝ)) (ψ : Ket ℕ) : Prop where
  size : buffer.size = 2 ^ n
  entry : ∀ x < 2 ^ n, (buffer.getD x 0).toComplex = ψ x.testBit

namespace Shows

variable {n : ℕ} {a b : Array (Cplx ℝ)} {ψ φ : Ket ℕ}

theorem eq (ha : Shows n a ψ) (hb : Shows n b ψ) : a = b := by
  apply ext_getD 0 (ha.size.trans hb.size.symm)
  intro x hx
  have hx' : x < 2 ^ n := ha.size ▸ hx
  exact Cplx.toComplex_injective ((ha.entry x hx').trans (hb.entry x hx').symm)

theorem congr (ha : Shows n a ψ) (h : ∀ x < 2 ^ n, ψ x.testBit = φ x.testBit) : Shows n a φ :=
  ⟨ha.size, fun x hx => (ha.entry x hx).trans (h x hx)⟩

end Shows

theorem exists_shows {n : ℕ} {buffer : Array (Cplx ℝ)} (h : buffer.size = 2 ^ n) :
    ∃ ψ, Shows n buffer ψ := by
  refine ⟨fun y => (buffer.getD (Nat.ofBits fun k : Fin n => y k) 0).toComplex, h, ?_⟩
  intro x hx
  have hbits : Nat.ofBits (fun k : Fin n => x.testBit k) = x := by
    rw [Nat.ofBits_testBit, Nat.mod_eq_of_lt hx]
  simp only [hbits]

/-! ## Dense matrices -/

theorem toComplex_addProducts (m : Array (Cplx ℝ)) (k : ℕ) (group : List (Cplx ℝ))
    (total : Cplx ℝ) :
    (addProducts m k group total).toComplex = total.toComplex +
      ∑ l ∈ Finset.range group.length,
        (m.getD (k + l) 0).toComplex * (group.getD l 0).toComplex := by
  induction group generalizing k total with
  | nil => simp [addProducts]
  | cons b rest ih =>
    rw [addProducts, ih, List.length_cons, Finset.sum_range_succ', Cplx.toComplex_add,
      Cplx.toComplex_mul]
    simp only [List.getD_cons_succ, List.getD_cons_zero, Nat.add_zero, Nat.add_assoc,
      Nat.add_comm 1]
    ring

noncomputable def entriesOf (m : Array (Cplx ℝ)) (dim : ℕ) : ℕ → ℕ → ℂ := fun r c =>
  (m.getD (r * dim + c) 0).toComplex

/-- The dense kernel acts as its matrix on the target bits. -/
theorem shows_applyMatrix {n : ℕ} {buffer : Array (Cplx ℝ)} {ψ : Ket ℕ} (h : Shows n buffer ψ)
    {targets : List ℕ} (ht : targets.Nodup) (hn : ∀ q ∈ targets, q < n) (m : Array (Cplx ℝ)) :
    Shows n (applyMatrix targets m buffer)
      (Ket.dense (entriesOf m (2 ^ targets.length)) targets ψ) := by
  refine ⟨by rw [size_applyMatrix, h.size], ?_⟩
  intro x hx
  rw [getD_applyMatrix ht hn h.size m hx, denseEntry, rowProduct, toComplex_addProducts,
    Cplx.toComplex_zero, zero_add, groupOf, List.length_map, List.length_range]
  apply Finset.sum_congr rfl
  intro l hl
  have hmember : ((((List.range (2 ^ targets.length)).map fun l =>
      buffer.getD (member targets x l) 0)).getD l 0).toComplex =
      ψ (Ket.scatter x.testBit targets l) := by
    rw [List.getD_eq_getElem?_getD, List.getElem?_map, List.getElem?_range (Finset.mem_range.mp hl),
      Option.map_some, Option.getD_some, h.entry _ (member_lt ht hn hx l), testBit_member ht]
  rw [hmember, entriesOf]

/-! ## Actions of gates -/

noncomputable def Gate.complexEntries (g : Gate ℝ) : ℕ → ℕ → ℂ := fun r c =>
  (g.entries r c).toComplex

/-- What a gate does to a ket. -/
noncomputable def Gate.action (g : Gate ℝ) (ψ : Ket ℕ) : Ket ℕ :=
  Ket.dense g.complexEntries g.qubits ψ

/-- The qubits of a gate differ and lie in a register. -/
structure Gate.Fits {α : Type} (g : Gate α) (n : ℕ) : Prop where
  nodup : g.qubits.Nodup
  lt : ∀ q ∈ g.qubits, q < n

theorem getD_tabulate {dim : ℕ} (entries : Entries ℝ) {r c : ℕ} (hr : r < dim) (hc : c < dim) :
    (tabulate dim entries).getD (r * dim + c) 0 = entries r c := by
  have hlt : r * dim + c < dim * dim := mul_add_lt_mul hr hc
  have hdiv : (r * dim + c) / dim = r := mul_add_div_right_of_lt hc r
  have hmod : (r * dim + c) % dim = c := Nat.mul_add_mod_of_lt hc
  rw [Array.getD_eq_getD_getElem?, tabulate, Array.getElem?_ofFn, dif_pos hlt, hdiv, hmod,
    Option.getD_some]

theorem Gate.dense_matrix (g : Gate ℝ) (ψ : Ket ℕ) :
    Ket.dense (entriesOf g.matrix (2 ^ g.qubits.length)) g.qubits ψ = g.action ψ :=
  Ket.dense_congr (fun r hr c hc => by
    rw [entriesOf, Gate.matrix, getD_tabulate _ hr hc, Gate.complexEntries]) ψ

theorem shows_applyMatrix_gate {n : ℕ} {buffer : Array (Cplx ℝ)} {ψ : Ket ℕ} (h : Shows n buffer ψ)
    {g : Gate ℝ} (hg : g.Fits n) :
    Shows n (applyMatrix g.qubits g.matrix buffer) (g.action ψ) :=
  g.dense_matrix ψ ▸ shows_applyMatrix h hg.nodup hg.lt g.matrix

/-! ## Closed forms -/

noncomputable def Gate.unitary (g : Gate ℝ) : Matrix (Fin 2) (Fin 2) ℂ :=
  Matrix.of fun i j => g.complexEntries i j

theorem Gate.action_of_qubits_eq {g : Gate ℝ} {q : ℕ} (hg : g.qubits = [q]) (ψ : Ket ℕ) :
    g.action ψ = Ket.onQubit g.unitary q ψ := by
  rw [Gate.action, hg, Ket.dense_singleton, Gate.unitary]

theorem of_rows2 (a b c d : Cplx ℝ) :
    (Matrix.of fun i j : Fin 2 => (rows2 a b c d i j).toComplex) =
      !![a.toComplex, b.toComplex; c.toComplex, d.toComplex] := by
  ext i j
  fin_cases i <;> fin_cases j <;> rfl

theorem Gate.unitary_rows2 {g : Gate ℝ} {a b c d : Cplx ℝ} (hg : g.entries = rows2 a b c d) :
    g.unitary = !![a.toComplex, b.toComplex; c.toComplex, d.toComplex] := by
  rw [← of_rows2, Gate.unitary]
  simp only [Gate.complexEntries, hg]

theorem toComplex_i : (⟨0, 1⟩ : Cplx ℝ).toComplex =
    Complex.exp ((Real.pi / 2 : ℝ) * Complex.I) := by
  apply Complex.ext
  · rw [Complex.exp_ofReal_mul_I_re, Real.cos_pi_div_two, Cplx.toComplex_re]
  · rw [Complex.exp_ofReal_mul_I_im, Real.sin_pi_div_two, Cplx.toComplex_im]

theorem toComplex_neg_i : (⟨0, -1⟩ : Cplx ℝ).toComplex =
    Complex.exp ((-(Real.pi / 2) : ℝ) * Complex.I) := by
  apply Complex.ext
  · rw [Complex.exp_ofReal_mul_I_re, Real.cos_neg, Real.cos_pi_div_two, Cplx.toComplex_re]
  · rw [Complex.exp_ofReal_mul_I_im, Real.sin_neg, Real.sin_pi_div_two, Cplx.toComplex_im]

theorem toComplex_neg_one : (⟨-1, 0⟩ : Cplx ℝ).toComplex = -1 := by
  apply Complex.ext <;> simp

theorem of_pauliX : (Matrix.of fun i j : Fin 2 => (pauliX (α := ℝ) i j).toComplex) =
    !![0, 1; 1, 0] := by
  simp [pauliX, of_rows2]

theorem of_diagonal (a : Cplx ℝ) :
    (Matrix.of fun i j : Fin 2 => (diagonal a i j).toComplex) = !![1, 0; 0, a.toComplex] := by
  simp [diagonal, of_rows2]

theorem Gate.action_x (q : ℕ) : (Gate.x q : Gate ℝ).action = Ket.onQubit !![0, 1; 1, 0] q := by
  funext ψ
  rw [Gate.action_of_qubits_eq rfl, ← of_pauliX]
  rfl

theorem Gate.action_z (q : ℕ) : (Gate.z q : Gate ℝ).action = Ket.onQubit !![1, 0; 0, -1] q := by
  funext ψ
  rw [Gate.action_of_qubits_eq rfl, ← toComplex_neg_one, ← of_diagonal]
  rfl

theorem add_two_mul_and_mask (i : Bool) (r k : ℕ) :
    (i.toNat + 2 * r) &&& (2 ^ (k + 1) - 1) = 2 ^ (k + 1) - 1 ↔
      i = true ∧ r &&& (2 ^ k - 1) = 2 ^ k - 1 := by
  have hpos := Nat.two_pow_pos k
  have hhalf : (i.toNat + 2 * r) / 2 = r := by cases i <;> simp; omega
  rw [Nat.and_two_pow_sub_one_eq_mod, Nat.and_two_pow_sub_one_eq_mod, pow_succ', Nat.mod_mul, hhalf]
  cases i <;> simp <;> omega

theorem controlled_succ (k : ℕ) (base : Entries ℝ) (i j : Bool) (r c : ℕ) :
    controlled (k + 1) base (i.toNat + 2 * r) (j.toNat + 2 * c) =
      if i = true ∧ j = true then controlled k base r c
      else if i = false ∧ j = false ∧ c = r then 1 else 0 := by
  have hshift (i : Bool) (r : ℕ) : (i.toNat + 2 * r) >>> (k + 1) = r >>> k := by
    have hhalf : (i.toNat + 2 * r) / 2 = r := by cases i <;> simp; omega
    rw [Nat.shiftRight_eq_div_pow, pow_succ', ← Nat.div_div_eq_div_mul, hhalf,
      Nat.shiftRight_eq_div_pow]
  simp only [controlled, add_two_mul_and_mask, hshift]
  cases i <;> cases j
  · simp [eq_comm]
  · simp; omega
  · simp; omega
  · simp [Nat.add_left_cancel_iff]

/-- A matrix under controls in the low bits acts where the bits of all controls are set. -/
theorem dense_controlled (base : Entries ℝ) {controls : List ℕ} {q : ℕ}
    (h : (controls ++ [q]).Nodup) :
    Ket.dense (fun r c => (controlled controls.length base r c).toComplex) (controls ++ [q]) =
      Ket.controlled controls (Ket.onQubit (Matrix.of fun i j => (base i j).toComplex) q) := by
  induction controls with
  | nil =>
    have hbase : (fun r c => (controlled 0 base r c).toComplex) =
        fun r c => (base r c).toComplex := by
      funext r c
      simp [controlled]
    funext ψ
    rw [List.nil_append, List.length_nil, hbase, Ket.dense_singleton, Ket.controlled_nil]
  | cons p rest ih =>
    rw [List.cons_append] at h ⊢
    obtain ⟨hp, hrest⟩ := List.nodup_cons.mp h
    have hblock (i j : Bool) : Ket.block
        (fun r c => (controlled (rest.length + 1) base r c).toComplex) i j = fun r c =>
          (if i = true ∧ j = true then controlled rest.length base r c
            else if i = false ∧ j = false ∧ c = r then 1 else 0 : Cplx ℝ).toComplex := by
      funext r c
      rw [Ket.block, controlled_succ]
    funext ψ
    rw [List.length_cons, Ket.dense_cons_of_blocks hp (F := fun r c =>
      (controlled rest.length base r c).toComplex), ih hrest, Ket.controlled_cons]
    · rw [hblock]
      funext r c
      by_cases hrc : c = r <;> simp [Ket.identity, hrc]
    · rw [hblock]
      simp
    · rw [hblock]
      simp
    · rw [hblock]
      simp

/-! ## Exchanges -/

theorem swapBits_one_add_two_mul (c : ℕ) : swapBits 1 2 (1 + 2 * c) = 1 + 2 * swapBits 0 1 c := by
  have h1 : (1 + 2 * c).testBit 1 = c.testBit 0 := by
    rw [Nat.testBit_succ]
    congr 1
    omega
  have h2 : (1 + 2 * c).testBit 2 = c.testBit 1 := by
    rw [Nat.testBit_succ]
    congr 1
    omega
  have hxor : (1 + 2 * c) ^^^ (2 ^ 1 ||| 2 ^ 2) = 1 + 2 * (c ^^^ (2 ^ 0 ||| 2 ^ 1)) := by
    apply Nat.eq_of_testBit_eq
    intro p
    cases p with
    | zero =>
      rw [Nat.testBit_xor]
      simp
    | succ p =>
      have hhalf (z : ℕ) : (1 + 2 * z) / 2 = z := by omega
      rw [Nat.testBit_xor, Nat.testBit_succ, Nat.testBit_succ, Nat.testBit_succ, hhalf, hhalf,
        Nat.testBit_xor]
      rfl
  rw [swapBits, swapBits, h1, h2, hxor]
  split <;> rfl

theorem dense_swap {a b : ℕ} (hab : a ≠ b) :
    Ket.dense (fun r c => (permutation (swapBits 0 1) r c : Cplx ℝ).toComplex) [a, b] =
      Ket.exchange a b := by
  funext ψ x
  have hx : x ∘ Equiv.swap a b = Function.update (Function.update x a (x b)) b (x a) := by
    funext p
    by_cases hpb : p = b
    · subst hpb
      simp
    · by_cases hpa : p = a
      · subst hpa
        simp [hpb]
      · simp [Equiv.swap_apply_of_ne_of_ne hpa hpb, hpa, hpb]
  rw [Ket.dense_cons _ (by simpa using hab), Ket.exchange, hx, Fintype.sum_bool,
    Ket.dense_cons _ (by simp), Ket.dense_cons _ (by simp), Fintype.sum_bool, Fintype.sum_bool]
  simp only [Ket.dense_nil, Ket.block, Function.update_of_ne hab.symm, permutation]
  have h0 : swapBits 0 1 0 = 0 := by decide
  have h1 : swapBits 0 1 1 = 2 := by decide
  have h2 : swapBits 0 1 2 = 1 := by decide
  have h3 : swapBits 0 1 3 = 3 := by decide
  cases x a <;> cases x b <;> simp [h0, h1, h2, h3]

theorem dense_controlled_swap {c a b : ℕ} (h : [c, a, b].Nodup) :
    Ket.dense (fun r k => (permutation (fun i => if i.testBit 0 then swapBits 1 2 i else i) r k :
        Cplx ℝ).toComplex) [c, a, b] =
      Ket.controlled [c] (Ket.exchange a b) := by
  obtain ⟨hc, hab⟩ := List.nodup_cons.mp h
  have hne : a ≠ b := by simpa using hab
  rw [← dense_swap hne]
  funext ψ
  have hblock (i j : Bool) : Ket.block (fun r k => (permutation
      (fun i => if i.testBit 0 then swapBits 1 2 i else i) r k : Cplx ℝ).toComplex) i j =
      fun r k => if i = j then (if i = true then
        (permutation (swapBits 0 1) r k : Cplx ℝ).toComplex else Ket.identity r k) else 0 := by
    funext r k
    simp only [Ket.block, permutation]
    cases i <;> cases j
    · by_cases hrk : k = r <;> simp [Ket.identity, hrk]
    · have hne : 1 + 2 * swapBits 0 1 k ≠ 2 * r := by omega
      simp [swapBits_one_add_two_mul, hne]
    · have hne : 2 * k ≠ 1 + 2 * r := by omega
      simp [hne]
    · simp [swapBits_one_add_two_mul]
  apply Ket.dense_cons_of_blocks hc <;> rw [hblock] <;> simp

/-! ## Gates on several qubits -/

theorem Gate.action_of_controlled {g : Gate ℝ} {controls : List ℕ} {q : ℕ} {base : Entries ℝ}
    (hq : g.qubits = controls ++ [q]) (hg : g.entries = controlled controls.length base)
    (hn : (controls ++ [q]).Nodup) :
    g.action =
      Ket.controlled controls (Ket.onQubit (Matrix.of fun i j => (base i j).toComplex) q) := by
  have hentries : g.complexEntries =
      fun r c => (controlled controls.length base r c).toComplex := by
    funext r c
    rw [Gate.complexEntries, hg]
  rw [← dense_controlled base hn]
  funext ψ
  rw [Gate.action, hq, hentries]

theorem Gate.action_cnot {c q : ℕ} (h : c ≠ q) :
    (Gate.cnot c q : Gate ℝ).action = Ket.controlled [c] (Ket.onQubit !![0, 1; 1, 0] q) := by
  have hn : ([c] ++ [q]).Nodup := by simpa using h
  rw [← of_pauliX]
  exact Gate.action_of_controlled rfl rfl hn

theorem Gate.action_cz {c q : ℕ} (h : c ≠ q) :
    (Gate.cz c q : Gate ℝ).action = Ket.controlled [c] (Ket.onQubit !![1, 0; 0, -1] q) := by
  have hn : ([c] ++ [q]).Nodup := by simpa using h
  rw [← toComplex_neg_one, ← of_diagonal]
  exact Gate.action_of_controlled rfl rfl hn

theorem Gate.action_toffoli {c d q : ℕ} (h : [c, d, q].Nodup) :
    (Gate.toffoli c d q : Gate ℝ).action =
      Ket.controlled [c, d] (Ket.onQubit !![0, 1; 1, 0] q) := by
  have hn : ([c, d] ++ [q]).Nodup := h
  rw [← of_pauliX]
  exact Gate.action_of_controlled rfl rfl hn

theorem Gate.action_swap {a b : ℕ} (h : a ≠ b) :
    (Gate.swap a b : Gate ℝ).action = Ket.exchange a b :=
  dense_swap h

theorem Gate.action_fredkin {c a b : ℕ} (h : [c, a, b].Nodup) :
    (Gate.fredkin c a b : Gate ℝ).action = Ket.controlled [c] (Ket.exchange a b) :=
  dense_controlled_swap h

/-! ## Checks -/

theorem checkDistinct_eq_ok {name : String} {n : ℕ} {seen qubits : List ℕ} :
    checkDistinct name n seen qubits = .ok () ↔
      (∀ q ∈ qubits, q < n ∧ q ∉ seen) ∧ qubits.Nodup := by
  induction qubits generalizing seen with
  | nil => simp [checkDistinct]
  | cons q rest ih =>
    rw [checkDistinct]
    split
    · simp; omega
    · split
      · simp_all
      · rw [ih]
        grind

theorem Gate.check_eq_ok {α : Type} {g : Gate α} {n : ℕ} : g.check n = .ok () ↔ g.Fits n := by
  rw [Gate.check, checkDistinct_eq_ok]
  constructor
  · rintro ⟨h, hn⟩
    exact ⟨hn, fun q hq => (h q hq).1⟩
  · rintro ⟨hn, h⟩
    exact ⟨fun q hq => ⟨h q hq, List.not_mem_nil⟩, hn⟩

end KetSim.Engine

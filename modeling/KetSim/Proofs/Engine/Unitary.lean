import Mathlib
import KetSim.Proofs.Engine.Kernel

/-! # Unitary gates

The gates of the engine act on a ket pair by pair: the indices of a pair differ in
one bit, or in the two bits of an exchange, and a gate keeps the sum of the squared
moduli of a pair. It keeps the sum over all indices then, whatever its angles and
wherever its qubits lie.
-/
namespace KetSim.Engine

/-! ## Weight -/

/-- The sum of the squared moduli over the indices of `n` bits. -/
noncomputable def mass (n : ℕ) (ψ : Ket ℕ) : ℝ :=
  ∑ x ∈ Finset.range (2 ^ n), Complex.normSq (ψ x.testBit)

/-- The squared moduli at an index and at the index that differs from it in a mask. -/
noncomputable def pairMass (mask : ℕ) (ψ : Ket ℕ) (x : ℕ) : ℝ :=
  Complex.normSq (ψ x.testBit) + Complex.normSq (ψ (x ^^^ mask).testBit)

/-- Every index belongs to two pairs, its own and that of its partner. -/
theorem sum_pairMass {mask n : ℕ} (hmask : mask < 2 ^ n) (ψ : Ket ℕ) :
    ∑ x ∈ Finset.range (2 ^ n), pairMass mask ψ x = 2 * mass n ψ := by
  have hpartner : ∑ x ∈ Finset.range (2 ^ n), Complex.normSq (ψ (x ^^^ mask).testBit) =
      mass n ψ := by
    have hlt {x : ℕ} (hx : x ∈ Finset.range (2 ^ n)) : x ^^^ mask ∈ Finset.range (2 ^ n) :=
      Finset.mem_range.mpr (Nat.xor_lt_two_pow (Finset.mem_range.mp hx) hmask)
    have hback (x : ℕ) : (x ^^^ mask) ^^^ mask = x := Nat.xor_xor_cancel_right x mask
    exact Finset.sum_nbij' (· ^^^ mask) (· ^^^ mask) (fun x hx => hlt hx) (fun x hx => hlt hx)
      (fun x _ => hback x) (fun x _ => hback x) fun x _ => rfl
  simp only [pairMass]
  rw [Finset.sum_add_distrib, hpartner, two_mul, mass]

/-- An operator that keeps the weight of every pair of indices which differ in the mask. -/
def KeepsPairs (mask : ℕ) (f : Ket ℕ → Ket ℕ) : Prop :=
  ∀ ψ x, pairMass mask (f ψ) x = pairMass mask ψ x

theorem KeepsPairs.mass_eq {mask n : ℕ} {f : Ket ℕ → Ket ℕ} (h : KeepsPairs mask f)
    (hmask : mask < 2 ^ n) (ψ : Ket ℕ) : mass n (f ψ) = mass n ψ := by
  have hsum : 2 * mass n (f ψ) = 2 * mass n ψ := by
    rw [← sum_pairMass hmask, ← sum_pairMass hmask]
    exact Finset.sum_congr rfl fun x _ => h ψ x
  linarith

/-! ## Operators on names -/

theorem normSq_add_of_unitary {U : Matrix (Fin 2) (Fin 2) ℂ}
    (hU : U ∈ Matrix.unitaryGroup (Fin 2) ℂ) (a b : ℂ) :
    Complex.normSq (U 0 0 * a + U 0 1 * b) + Complex.normSq (U 1 0 * a + U 1 1 * b) =
      Complex.normSq a + Complex.normSq b := by
  have hcolumns := Matrix.mem_unitaryGroup_iff'.mp hU
  have hentry (i j : Fin 2) : starRingEnd ℂ (U 0 i) * U 0 j + starRingEnd ℂ (U 1 i) * U 1 j =
      (1 : Matrix (Fin 2) (Fin 2) ℂ) i j := by
    rw [← hcolumns, Matrix.mul_apply, Fin.sum_univ_two]
    rfl
  have h00 := hentry 0 0
  have h01 := hentry 0 1
  have h10 := hentry 1 0
  have h11 := hentry 1 1
  simp only [Matrix.one_apply, Fin.isValue, if_true, one_ne_zero, zero_ne_one, if_false]
    at h00 h01 h10 h11
  apply Complex.ofReal_injective
  simp only [Complex.ofReal_add, ← Complex.mul_conj, map_add, map_mul]
  linear_combination a * starRingEnd ℂ a * h00 + b * starRingEnd ℂ b * h11 +
    starRingEnd ℂ a * b * h01 + a * starRingEnd ℂ b * h10

theorem keepsPairs_onQubit {U : Matrix (Fin 2) (Fin 2) ℂ}
    (hU : U ∈ Matrix.unitaryGroup (Fin 2) ℂ) (q : ℕ) : KeepsPairs (2 ^ q) (Ket.onQubit U q) := by
  intro ψ x
  have hself : Function.update x.testBit q (x.testBit q) = x.testBit := Function.update_eq_self q _
  rw [pairMass, pairMass, testBit_xor_two_pow]
  cases hx : x.testBit q with
  | false =>
    have h := normSq_add_of_unitary hU (ψ x.testBit) (ψ (Function.update x.testBit q true))
    rw [hx] at hself
    simpa [Ket.onQubit, hx, hself, add_comm] using h
  | true =>
    have h := normSq_add_of_unitary hU (ψ (Function.update x.testBit q false)) (ψ x.testBit)
    rw [hx] at hself
    simpa [Ket.onQubit, hx, hself, add_comm] using h

theorem keepsPairs_exchange {a b : ℕ} (hab : a ≠ b) :
    KeepsPairs (2 ^ a ||| 2 ^ b) (Ket.exchange a b) := by
  intro ψ x
  have hbita : (x ^^^ (2 ^ a ||| 2 ^ b)).testBit a = !x.testBit a := by simp
  have hbitb : (x ^^^ (2 ^ a ||| 2 ^ b)).testBit b = !x.testBit b := by simp
  simp only [pairMass, Ket.exchange]
  by_cases h : x.testBit a = x.testBit b
  · have h' : (x ^^^ (2 ^ a ||| 2 ^ b)).testBit a = (x ^^^ (2 ^ a ||| 2 ^ b)).testBit b := by
      rw [hbita, hbitb, h]
    rw [comp_swap_of_eq h, comp_swap_of_eq h']
  · -- the members of the pair change places
    have hswap := testBit_xor_pair hab h
    have hback : (x ^^^ (2 ^ a ||| 2 ^ b)).testBit ∘ Equiv.swap a b = x.testBit := by
      rw [hswap]
      funext p
      simp
    rw [hback, ← hswap, add_comm]

theorem KeepsPairs.controlled {mask : ℕ} {f : Ket ℕ → Ket ℕ} (h : KeepsPairs mask f)
    {controls : List ℕ}
    (hcontrols : ∀ x, controls.all (x ^^^ mask).testBit = controls.all x.testBit) :
    KeepsPairs mask (Ket.controlled controls f) := by
  intro ψ x
  simp only [pairMass, Ket.controlled, hcontrols]
  cases controls.all x.testBit with
  | false => rfl
  | true => exact h ψ x

/-! ## Matrices of gates -/

/-- The columns of a two-by-two matrix are orthogonal and of length one. -/
structure Orthonormal (a b c d : Cplx ℝ) : Prop where
  left : a.normSq + c.normSq = 1
  right : b.normSq + d.normSq = 1
  cross : a.conj * b + c.conj * d = 0

theorem Orthonormal.mem_unitaryGroup {a b c d : Cplx ℝ} (h : Orthonormal a b c d) :
    !![a.toComplex, b.toComplex; c.toComplex, d.toComplex] ∈ Matrix.unitaryGroup (Fin 2) ℂ := by
  have hlength {v w : Cplx ℝ} (hvw : v.normSq + w.normSq = 1) :
      starRingEnd ℂ v.toComplex * v.toComplex + starRingEnd ℂ w.toComplex * w.toComplex = 1 := by
    rw [← Complex.normSq_eq_conj_mul_self, ← Complex.normSq_eq_conj_mul_self, ← Cplx.normSq_eq,
      ← Cplx.normSq_eq]
    exact_mod_cast hvw
  have hcross : starRingEnd ℂ a.toComplex * b.toComplex +
      starRingEnd ℂ c.toComplex * d.toComplex = 0 := by
    simpa using congrArg Cplx.toComplex h.cross
  have hcross' : starRingEnd ℂ b.toComplex * a.toComplex +
      starRingEnd ℂ d.toComplex * c.toComplex = 0 := by
    simpa [mul_comm] using congrArg (starRingEnd ℂ) hcross
  rw [Matrix.mem_unitaryGroup_iff']
  ext i j
  fin_cases i <;> fin_cases j <;>
    simp [Matrix.mul_apply, Fin.sum_univ_two, Matrix.star_apply, hlength h.left, hlength h.right,
      hcross, hcross']

theorem orthonormal_diagonal {a d : Cplx ℝ} (ha : a.normSq = 1) (hd : d.normSq = 1) :
    Orthonormal a 0 0 d := by
  have hzero : (0 : Cplx ℝ).normSq = 0 := by simp [Cplx.normSq_eq]
  exact ⟨by rw [ha, hzero, add_zero], by rw [hd, hzero, zero_add],
    Cplx.toComplex_injective (by simp)⟩

theorem orthonormal_antidiagonal {b c : Cplx ℝ} (hb : b.normSq = 1) (hc : c.normSq = 1) :
    Orthonormal 0 b c 0 := by
  have hzero : (0 : Cplx ℝ).normSq = 0 := by simp [Cplx.normSq_eq]
  exact ⟨by rw [hc, hzero, zero_add], by rw [hb, hzero, add_zero],
    Cplx.toComplex_injective (by simp)⟩

/-- The turns about the axes in the plane have their columns on a circle. -/
theorem orthonormal_rx {c s : ℝ} (h : c * c + s * s = 1) :
    Orthonormal ⟨c, 0⟩ ⟨0, s⟩ ⟨0, s⟩ ⟨c, 0⟩ where
  left := by simpa [Cplx.normSq] using h
  right := by simpa [Cplx.normSq, add_comm] using h
  cross := Cplx.toComplex_injective (Complex.ext (by simp) (by simp; ring))

theorem orthonormal_ry {c s : ℝ} (h : c * c + s * s = 1) :
    Orthonormal ⟨c, 0⟩ ⟨s, 0⟩ ⟨-s, 0⟩ ⟨c, 0⟩ where
  left := by simpa [Cplx.normSq] using h
  right := by simpa [Cplx.normSq, add_comm] using h
  cross := Cplx.toComplex_injective (Complex.ext (by simp; ring) (by simp))

theorem orthonormal_unitary3 {c s : ℝ} (h : c * c + s * s = 1) (phi lam : ℝ) :
    Orthonormal (Cplx.ofReal c) (-Cplx.polar s lam) (Cplx.polar s phi)
      (Cplx.polar c (phi + lam)) where
  left := by
    rw [Cplx.normSq_polar]
    simpa [Cplx.normSq, Cplx.ofReal] using h
  right := by
    have hneg : (-Cplx.polar s lam).normSq = s * s := by
      rw [Cplx.normSq_eq, Cplx.toComplex_neg, Complex.normSq_neg, ← Cplx.normSq_eq,
        Cplx.normSq_polar]
    rw [hneg, Cplx.normSq_polar, add_comm]
    exact h
  cross := by
    apply Cplx.toComplex_injective
    have hturn := Cplx.conj_cis_mul phi
    rw [Cplx.toComplex_cis] at hturn
    simp only [Cplx.toComplex_add, Cplx.toComplex_mul, Cplx.toComplex_conj, Cplx.toComplex_neg,
      Cplx.toComplex_ofReal, Cplx.toComplex_polar, Cplx.toComplex_zero, map_mul,
      Complex.conj_ofReal, Complex.ofReal_add, add_mul, Complex.exp_add]
    linear_combination (s : ℂ) * c * Complex.exp (lam * Complex.I) * hturn

theorem orthonormal_h : Orthonormal (Cplx.ofReal (√(1 / 2))) (Cplx.ofReal (√(1 / 2)))
    (Cplx.ofReal (√(1 / 2))) (-Cplx.ofReal (√(1 / 2))) := by
  have hhalf : √(1 / 2) * √(1 / 2) = (1 / 2 : ℝ) := Real.mul_self_sqrt (by norm_num)
  have hlength : (Cplx.ofReal (√(1 / 2))).normSq = 1 / 2 := by
    simpa [Cplx.normSq, Cplx.ofReal] using hhalf
  have hneg : (-Cplx.ofReal (√(1 / 2))).normSq = 1 / 2 := by
    rw [Cplx.normSq_eq, Cplx.toComplex_neg, Complex.normSq_neg, ← Cplx.normSq_eq, hlength]
  exact ⟨by rw [hlength]; norm_num, by rw [hlength, hneg]; norm_num,
    Cplx.toComplex_injective (by simp)⟩

/-- Every gate on one qubit has a unitary matrix, at every angle. -/
theorem Gate.exists_orthonormal (g : Gate ℝ) {q : ℕ} (hq : g.qubits = [q]) :
    ∃ a b c d, g.entries = rows2 a b c d ∧ Orthonormal a b c d := by
  have hcircle (t : ℝ) : Real.cos t * Real.cos t + Real.sin t * Real.sin t = 1 := by
    have h := Real.cos_sq_add_sin_sq t
    rwa [pow_two, pow_two] at h
  have hone : (1 : Cplx ℝ).normSq = 1 := by simp [Cplx.normSq_eq]
  have hsign : (⟨-1, 0⟩ : Cplx ℝ).normSq = 1 := by simp [Cplx.normSq]
  have hi : (⟨0, 1⟩ : Cplx ℝ).normSq = 1 := by simp [Cplx.normSq]
  have hneg : (⟨0, -1⟩ : Cplx ℝ).normSq = 1 := by simp [Cplx.normSq]
  cases g with
  | x _ => exact ⟨_, _, _, _, rfl, orthonormal_antidiagonal hone hone⟩
  | y _ => exact ⟨_, _, _, _, rfl, orthonormal_antidiagonal hneg hi⟩
  | z _ => exact ⟨_, _, _, _, rfl, orthonormal_diagonal hone hsign⟩
  | h _ =>
    refine ⟨_, _, _, _, rfl, ?_⟩
    rw [Scalar.half_real]
    exact orthonormal_h
  | s _ => exact ⟨_, _, _, _, rfl, orthonormal_diagonal hone hi⟩
  | sdag _ => exact ⟨_, _, _, _, rfl, orthonormal_diagonal hone hneg⟩
  | t _ | tdag _ | u1 _ _ =>
    exact ⟨_, _, _, _, rfl, orthonormal_diagonal hone (Cplx.normSq_cis _)⟩
  | sqrtX _ | sqrtXdag _ =>
    refine ⟨_, _, _, _, rfl, ?_, ?_, Cplx.toComplex_injective (Complex.ext ?_ ?_)⟩ <;>
      simp [Cplx.normSq] <;> norm_num
  | rx _ theta => exact ⟨_, _, _, _, rfl, orthonormal_rx (hcircle _)⟩
  | ry _ theta => exact ⟨_, _, _, _, rfl, orthonormal_ry (hcircle _)⟩
  | rz _ theta =>
    exact ⟨_, _, _, _, rfl, orthonormal_diagonal (Cplx.normSq_cis _) (Cplx.normSq_cis _)⟩
  | u2 _ phi lam | u3 _ theta phi lam =>
    exact ⟨_, _, _, _, rfl, orthonormal_unitary3 (hcircle _) phi lam⟩
  | cnot _ _ | cz _ _ | swap _ _ | toffoli _ _ _ | fredkin _ _ _ => cases hq

/-! ## Gates -/

theorem Gate.keepsPairs_of_qubits_eq {g : Gate ℝ} {q : ℕ} (hq : g.qubits = [q]) :
    KeepsPairs (2 ^ q) g.action := by
  obtain ⟨a, b, c, d, hentries, horthonormal⟩ := g.exists_orthonormal hq
  have hunitary : g.unitary ∈ Matrix.unitaryGroup (Fin 2) ℂ := by
    rw [Gate.unitary_rows2 hentries]
    exact horthonormal.mem_unitaryGroup
  have haction : g.action = Ket.onQubit g.unitary q := funext (Gate.action_of_qubits_eq hq)
  rw [haction]
  exact keepsPairs_onQubit hunitary q

theorem KeepsPairs.controlled_bit {f : Ket ℕ → Ket ℕ} {q : ℕ} (h : KeepsPairs (2 ^ q) f)
    {controls : List ℕ} (hq : q ∉ controls) : KeepsPairs (2 ^ q) (Ket.controlled controls f) :=
  h.controlled fun x => by rw [testBit_xor_two_pow, all_testBit_update hq]

/-- A gate that fits the register keeps the weight of the pairs of some mask within it. -/
theorem Gate.exists_keepsPairs {g : Gate ℝ} {n : ℕ} (hg : g.Fits n) :
    ∃ mask < 2 ^ n, KeepsPairs mask g.action := by
  have hbit {q : ℕ} (hq : q < n) : 2 ^ q < 2 ^ n := Nat.pow_lt_pow_right (by omega) hq
  have hflip (q : ℕ) : KeepsPairs (2 ^ q) (Ket.onQubit !![0, 1; 1, 0] q) :=
    Gate.action_x q ▸ Gate.keepsPairs_of_qubits_eq rfl
  have hnegate (q : ℕ) : KeepsPairs (2 ^ q) (Ket.onQubit !![1, 0; 0, -1] q) :=
    Gate.action_z q ▸ Gate.keepsPairs_of_qubits_eq rfl
  have hlt := hg.lt
  have hn := hg.nodup
  cases g with
  | x q | y q | z q | h q | s q | sdag q | t q | tdag q | sqrtX q | sqrtXdag q | rx q theta
  | ry q theta | rz q theta | u1 q lam | u2 q phi lam | u3 q theta phi lam =>
    exact ⟨2 ^ q, hbit (hlt q (by simp [Gate.qubits])), Gate.keepsPairs_of_qubits_eq rfl⟩
  | cnot c q =>
    have hcq : c ≠ q := by simpa [Gate.qubits] using hn
    refine ⟨2 ^ q, hbit (hlt q (by simp [Gate.qubits])), ?_⟩
    rw [Gate.action_cnot hcq]
    exact (hflip q).controlled_bit (by simpa using Ne.symm hcq)
  | cz c q =>
    have hcq : c ≠ q := by simpa [Gate.qubits] using hn
    refine ⟨2 ^ q, hbit (hlt q (by simp [Gate.qubits])), ?_⟩
    rw [Gate.action_cz hcq]
    exact (hnegate q).controlled_bit (by simpa using Ne.symm hcq)
  | toffoli c d q =>
    have hq : q ∉ [c, d] := by
      have := (List.nodup_append.mp (show ([c, d] ++ [q]).Nodup from hn)).2.2
      exact fun hmem => this q hmem q List.mem_cons_self rfl
    refine ⟨2 ^ q, hbit (hlt q (by simp [Gate.qubits])), ?_⟩
    rw [Gate.action_toffoli hn]
    exact (hflip q).controlled_bit hq
  | swap a b =>
    have hab : a ≠ b := by simpa [Gate.qubits] using hn
    refine ⟨2 ^ a ||| 2 ^ b, two_pow_pair_lt (hlt a (by simp [Gate.qubits]))
      (hlt b (by simp [Gate.qubits])), ?_⟩
    rw [Gate.action_swap hab]
    exact keepsPairs_exchange hab
  | fredkin c a b =>
    obtain ⟨hc, hab⟩ : (c ≠ a ∧ c ≠ b) ∧ a ≠ b := by simpa [Gate.qubits] using hn
    refine ⟨2 ^ a ||| 2 ^ b, two_pow_pair_lt (hlt a (by simp [Gate.qubits]))
      (hlt b (by simp [Gate.qubits])), ?_⟩
    rw [Gate.action_fredkin hn]
    exact (keepsPairs_exchange hab).controlled
      (all_testBit_xor_pair (by simpa using Ne.symm hc.1) (by simpa using Ne.symm hc.2))

/-- Gates keep the weight of a ket, so a run of them does. -/
theorem mass_foldl_action {n : ℕ} {gates : List (Gate ℝ)} (hg : ∀ g ∈ gates, g.Fits n)
    (ψ : Ket ℕ) : mass n (gates.foldl (fun φ g => g.action φ) ψ) = mass n ψ := by
  induction gates generalizing ψ with
  | nil => rfl
  | cons g rest ih =>
    obtain ⟨hfits, hrest⟩ := List.forall_mem_cons.mp hg
    obtain ⟨mask, hmask, hkeeps⟩ := Gate.exists_keepsPairs hfits
    rw [List.foldl_cons, ih hrest, hkeeps.mass_eq hmask]

theorem mass_zero (n : ℕ) : mass n Ket.zero = 1 := by
  have hzero (x : ℕ) : (∀ q, x.testBit q = false) ↔ x = 0 :=
    ⟨Nat.zero_of_testBit_eq_false, by rintro rfl; simp⟩
  rw [mass, Finset.sum_eq_single 0]
  · simp [Ket.zero]
  · intro x _ hx
    simp [Ket.zero, hzero, hx]
  · intro h
    exact absurd (Finset.mem_range.mpr (Nat.two_pow_pos n)) h

end KetSim.Engine

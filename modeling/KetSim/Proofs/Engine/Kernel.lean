import Mathlib
import KetSim.Engine.Kernel
import KetSim.Proofs.Engine.Action
import KetSim.Proofs.Engine.Sweep

/-! # Kernels and their matrices

Every kernel leaves a buffer that shows the action of its gate, hence the very
buffer that the dense kernel leaves. The sweeps are treated once: pairs under
controls, exchanges under controls, and single entries.
-/
namespace KetSim.Engine

variable {n : ℕ} {buffer : Array (Cplx ℝ)} {ψ φ : Ket ℕ}

/-! ## Partners of indices -/

theorem testBit_xor_two_pow (x q : ℕ) :
    (x ^^^ 2 ^ q).testBit = Function.update x.testBit q (!x.testBit q) := by
  funext p
  rw [Nat.testBit_xor, Nat.testBit_two_pow]
  by_cases h : p = q
  · subst h
    simp
  · simp [h, Ne.symm h]

theorem all_testBit_update {controls : List ℕ} {q : ℕ} (hq : q ∉ controls) (y : ℕ → Bool)
    (b : Bool) : controls.all (Function.update y q b) = controls.all y := by
  rw [Bool.eq_iff_iff, List.all_eq_true, List.all_eq_true]
  apply forall₂_congr
  intro p hp
  rw [Function.update_of_ne (ne_of_mem_of_not_mem hp hq)]

theorem lor_two_pow_of_clear {x q : ℕ} (h : x.testBit q = false) : x ||| 2 ^ q = x ^^^ 2 ^ q := by
  apply Nat.eq_of_testBit_eq
  intro p
  rw [Nat.testBit_or, Nat.testBit_xor, Nat.testBit_two_pow]
  by_cases hp : q = p
  · subst hp
    simp [h]
  · simp [hp]

/-! ## Pairs -/

/-- A step on pairs that multiplies them by a matrix. -/
def Multiplies (step : Cplx ℝ → Cplx ℝ → Cplx ℝ × Cplx ℝ) (U : Matrix (Fin 2) (Fin 2) ℂ) : Prop :=
  ∀ a b,
    (step a b).1.toComplex = U (Ket.slot false) (Ket.slot false) * a.toComplex +
      U (Ket.slot false) (Ket.slot true) * b.toComplex ∧
    (step a b).2.toComplex = U (Ket.slot true) (Ket.slot false) * a.toComplex +
      U (Ket.slot true) (Ket.slot true) * b.toComplex

/-- The entries after a sweep over the pairs that differ in one bit, where all controls are set. -/
theorem getD_sweepPairs_bit {β : Type} {buffer : Array β} (hsize : buffer.size = 2 ^ n)
    {controls : List ℕ} {q : ℕ} (hc : q ∉ controls) (hq : q < n) (step : β → β → β × β) (d : β)
    {x : ℕ} (hx : x < 2 ^ n) :
    (sweepPairs (fun i => controls.all i.testBit && !i.testBit q) (· ||| 2 ^ q) step buffer).getD
        x d =
      paired (fun i => controls.all i.testBit && !i.testBit q) (· ^^^ 2 ^ q) step (buffer.getD · d)
        x := by
  have hcontrols (x : ℕ) : controls.all (x ^^^ 2 ^ q).testBit = controls.all x.testBit := by
    rw [testBit_xor_two_pow, all_testBit_update hc]
  have hbit (x : ℕ) : (x ^^^ 2 ^ q).testBit q = !x.testBit q := by
    rw [testBit_xor_two_pow, Function.update_self]
  have hlt (x : ℕ) (hx : x < 2 ^ n) : x ^^^ 2 ^ q < 2 ^ n :=
    Nat.xor_lt_two_pow hx (Nat.pow_lt_pow_right (by omega) hq)
  exact getD_sweepPairs (· ^^^ 2 ^ q) (fun i => by simp)
    (fun i hi => lor_two_pow_of_clear (by simp_all)) (fun i hi => by simp_all) step d
    (fun i hi => by rw [hsize] at hi ⊢; exact hlt i hi) (by rw [hsize]; exact hx)

/-- A sweep over the pairs that differ in one bit, where all controls are set. -/
theorem shows_sweepPairs (h : Shows n buffer ψ) {controls : List ℕ} {q : ℕ} (hc : q ∉ controls)
    (hq : q < n) {step : Cplx ℝ → Cplx ℝ → Cplx ℝ × Cplx ℝ} {U : Matrix (Fin 2) (Fin 2) ℂ}
    (hU : Multiplies step U) :
    Shows n (sweepPairs (fun i => controls.all i.testBit && !i.testBit q) (· ||| 2 ^ q) step buffer)
      (Ket.controlled controls (Ket.onQubit U q) ψ) := by
  have hcontrols (x : ℕ) : controls.all (x ^^^ 2 ^ q).testBit = controls.all x.testBit := by
    rw [testBit_xor_two_pow, all_testBit_update hc]
  have hbit (x : ℕ) : (x ^^^ 2 ^ q).testBit q = !x.testBit q := by
    rw [testBit_xor_two_pow, Function.update_self]
  refine ⟨by rw [size_sweepPairs, h.size], ?_⟩
  intro x hx
  rw [getD_sweepPairs_bit h.size hc hq step 0 hx]
  have hx' := h.entry x hx
  have hm := h.entry (x ^^^ 2 ^ q)
    (Nat.xor_lt_two_pow hx (Nat.pow_lt_pow_right (by omega) hq))
  rw [testBit_xor_two_pow] at hm
  have hself : Function.update x.testBit q (x.testBit q) = x.testBit := Function.update_eq_self q _
  simp only [paired, hcontrols, hbit, Ket.controlled, Ket.onQubit, Fintype.sum_bool]
  generalize buffer.getD x 0 = v at hx' ⊢
  generalize buffer.getD (x ^^^ 2 ^ q) 0 = w at hm ⊢
  cases hall : controls.all x.testBit
  · simp [hx']
  · cases hb : x.testBit q
    · rw [hb] at hm hself
      simp [(hU _ _).1, hx', hm, hself, add_comm]
    · rw [hb] at hm hself
      simp [(hU _ _).2, hx', hm, hself, add_comm]

theorem shows_updateQubit (h : Shows n buffer ψ) {q : ℕ} (hq : q < n)
    {step : Cplx ℝ → Cplx ℝ → Cplx ℝ × Cplx ℝ} {U : Matrix (Fin 2) (Fin 2) ℂ}
    (hU : Multiplies step U) : Shows n (updateQubit q step buffer) (Ket.onQubit U q ψ) := by
  have hc : q ∉ ([] : List ℕ) := List.not_mem_nil
  have hs := shows_sweepPairs h hc hq hU
  rw [Ket.controlled_nil] at hs
  simpa only [updateQubit, List.all_nil, Bool.true_and] using hs

theorem shows_flipControlled (h : Shows n buffer ψ) {controls : List ℕ} {q : ℕ}
    (hc : q ∉ controls) (hq : q < n) :
    Shows n (flipControlled controls q buffer)
      (Ket.controlled controls (Ket.onQubit !![0, 1; 1, 0] q) ψ) :=
  shows_sweepPairs h hc hq fun a b => by simp

/-! ## Exchanges -/

theorem testBit_xor_pair_apply (x a b p : ℕ) : (x ^^^ (2 ^ a ||| 2 ^ b)).testBit p =
    (x.testBit p ^^ (decide (a = p) || decide (b = p))) := by
  rw [Nat.testBit_xor, Nat.testBit_or, Nat.testBit_two_pow, Nat.testBit_two_pow]

theorem all_testBit_xor_pair {controls : List ℕ} {a b : ℕ} (ha : a ∉ controls) (hb : b ∉ controls)
    (x : ℕ) : controls.all (x ^^^ (2 ^ a ||| 2 ^ b)).testBit = controls.all x.testBit := by
  rw [Bool.eq_iff_iff, List.all_eq_true, List.all_eq_true]
  apply forall₂_congr
  intro p hp
  have hpa : a ≠ p := fun e => ha (e ▸ hp)
  have hpb : b ≠ p := fun e => hb (e ▸ hp)
  simp [hpa, hpb]

theorem xor_lor_two_pow {a b x : ℕ} (hab : a ≠ b) (hx : x.testBit b = false) :
    (x ^^^ 2 ^ a) ||| 2 ^ b = x ^^^ (2 ^ a ||| 2 ^ b) := by
  apply Nat.eq_of_testBit_eq
  intro p
  rw [testBit_xor_pair_apply, Nat.testBit_or, Nat.testBit_xor, Nat.testBit_two_pow,
    Nat.testBit_two_pow]
  by_cases hp : b = p
  · subst hp
    simp [hx, hab]
  · simp [hp]

theorem testBit_xor_pair {a b x : ℕ} (hab : a ≠ b) (h : x.testBit a ≠ x.testBit b) :
    (x ^^^ (2 ^ a ||| 2 ^ b)).testBit = x.testBit ∘ Equiv.swap a b := by
  funext p
  rw [testBit_xor_pair_apply, Function.comp_apply]
  by_cases hpa : p = a
  · subst hpa
    cases hx : x.testBit p <;> simp_all
  · by_cases hpb : p = b
    · subst hpb
      cases hx : x.testBit p <;> simp_all
    · simp [Equiv.swap_apply_of_ne_of_ne hpa hpb, Ne.symm hpa, Ne.symm hpb]

theorem comp_swap_of_eq {a b : ℕ} {y : ℕ → Bool} (h : y a = y b) : y ∘ Equiv.swap a b = y := by
  funext p
  rw [Function.comp_apply, Equiv.swap_apply_def]
  split
  · simp_all
  · split <;> simp_all

theorem two_pow_pair_lt {a b : ℕ} (ha : a < n) (hb : b < n) : 2 ^ a ||| 2 ^ b < 2 ^ n :=
  Nat.or_lt_two_pow (Nat.pow_lt_pow_right (by omega) ha) (Nat.pow_lt_pow_right (by omega) hb)

theorem xor_pair_lt {a b x : ℕ} (ha : a < n) (hb : b < n) (hx : x < 2 ^ n) :
    x ^^^ (2 ^ a ||| 2 ^ b) < 2 ^ n :=
  Nat.xor_lt_two_pow hx (two_pow_pair_lt ha hb)

/-- The entries after an exchange of two bits, where all controls are set. -/
theorem getD_sweepSwaps_pair {β : Type} {buffer : Array β} (hsize : buffer.size = 2 ^ n)
    {controls : List ℕ} {a b : ℕ} (hab : a ≠ b) (hca : a ∉ controls) (hcb : b ∉ controls)
    (ha : a < n) (hb : b < n) (d : β) {x : ℕ} (hx : x < 2 ^ n) :
    (sweepSwaps (fun i => controls.all i.testBit && i.testBit a && !i.testBit b)
        (fun i => (i ^^^ 2 ^ a) ||| 2 ^ b) buffer).getD x d =
      paired (fun i => controls.all i.testBit && i.testBit a && !i.testBit b)
        (· ^^^ (2 ^ a ||| 2 ^ b)) (fun v w => (w, v)) (buffer.getD · d) x := by
  have hcontrols := all_testBit_xor_pair hca hcb
  have hbita (x : ℕ) : (x ^^^ (2 ^ a ||| 2 ^ b)).testBit a = !x.testBit a := by simp
  have hbitb (x : ℕ) : (x ^^^ (2 ^ a ||| 2 ^ b)).testBit b = !x.testBit b := by simp
  exact getD_sweepPairs (· ^^^ (2 ^ a ||| 2 ^ b)) (fun i => by simp)
    (fun i hi => xor_lor_two_pow hab (by simp_all)) (fun i hi => by simp_all) _ d
    (fun i hi => by rw [hsize] at hi ⊢; exact xor_pair_lt ha hb hi) (by rw [hsize]; exact hx)

theorem shows_swapControlled (h : Shows n buffer ψ) {controls : List ℕ} {a b : ℕ} (hab : a ≠ b)
    (hca : a ∉ controls) (hcb : b ∉ controls) (ha : a < n) (hb : b < n) :
    Shows n (swapControlled controls a b buffer)
      (Ket.controlled controls (Ket.exchange a b) ψ) := by
  have hcontrols := all_testBit_xor_pair hca hcb
  have hbita (x : ℕ) : (x ^^^ (2 ^ a ||| 2 ^ b)).testBit a = !x.testBit a := by simp
  have hbitb (x : ℕ) : (x ^^^ (2 ^ a ||| 2 ^ b)).testBit b = !x.testBit b := by simp
  refine ⟨by rw [swapControlled, size_sweepSwaps, h.size], ?_⟩
  intro x hx
  rw [swapControlled, getD_sweepSwaps_pair h.size hab hca hcb ha hb 0 hx]
  have hx' := h.entry x hx
  have hm := h.entry _ (xor_pair_lt ha hb hx)
  simp only [paired, hcontrols, hbita, hbitb, Ket.controlled, Ket.exchange]
  generalize buffer.getD x 0 = v at hx' ⊢
  generalize buffer.getD (x ^^^ (2 ^ a ||| 2 ^ b)) 0 = w at hm ⊢
  cases hall : controls.all x.testBit
  · simp [hx']
  · by_cases he : x.testBit a = x.testBit b
    · rw [comp_swap_of_eq he]
      cases hxb : x.testBit b <;> simp [he, hxb, hx']
    · rw [testBit_xor_pair hab he] at hm
      cases hxa : x.testBit a <;> cases hxb : x.testBit b <;> simp_all

/-! ## Single entries -/

theorem shows_sweepEach (h : Shows n buffer ψ) {step : ℕ → Cplx ℝ → Cplx ℝ}
    (hstep : ∀ x a, a.toComplex = ψ x.testBit → (step x a).toComplex = φ x.testBit) :
    Shows n (sweepEach step buffer) φ := by
  refine ⟨by rw [size_sweepEach, h.size], ?_⟩
  intro x hx
  rw [getD_sweepEach step 0 (by rw [h.size]; exact hx)]
  exact hstep x _ (h.entry x hx)

theorem shows_negateWhere (h : Shows n buffer ψ) (controls : List ℕ) (q : ℕ) :
    Shows n (negateWhere (controls ++ [q]) buffer)
      (Ket.controlled controls (Ket.onQubit !![1, 0; 0, -1] q) ψ) := by
  apply shows_sweepEach h
  intro x a ha
  rw [Ket.controlled, Ket.onQubit_diagonal, List.all_append]
  cases controls.all x.testBit <;> cases hx : x.testBit q <;> simp [ha, hx]

theorem shows_turnWhere (h : Shows n buffer ψ) (q : ℕ) (angle : ℝ) :
    Shows n (turnWhere q angle buffer)
      (Ket.onQubit !![1, 0; 0, Complex.exp (angle * Complex.I)] q ψ) := by
  apply shows_sweepEach h
  intro x a ha
  rw [Ket.onQubit_diagonal]
  cases hx : x.testBit q <;> simp [ha, mul_comm]

theorem shows_turnEach (h : Shows n buffer ψ) (q : ℕ) (clear set : ℝ) :
    Shows n (turnEach q clear set buffer)
      (Ket.onQubit !![Complex.exp (clear * Complex.I), 0; 0, Complex.exp (set * Complex.I)] q
        ψ) := by
  apply shows_sweepEach h
  intro x a ha
  rw [Ket.onQubit_diagonal]
  cases hx : x.testBit q <;> simp [ha, mul_comm]

/-! ## Gates -/

abbrev MultipliesRows (step : Cplx ℝ → Cplx ℝ → Cplx ℝ × Cplx ℝ) (a b c d : Cplx ℝ) : Prop :=
  Multiplies step !![a.toComplex, b.toComplex; c.toComplex, d.toComplex]

theorem multiplies_stepY : MultipliesRows stepY 0 ⟨0, -1⟩ ⟨0, 1⟩ 0 := by
  intro v w
  constructor <;> apply Complex.ext <;> simp [stepY]

theorem multiplies_stepH (r : ℝ) :
    MultipliesRows (stepH r) (Cplx.ofReal r) (Cplx.ofReal r) (Cplx.ofReal r) (-Cplx.ofReal r) := by
  intro v w
  constructor <;> simp [stepH, mul_add, sub_eq_add_neg]

theorem multiplies_stepRx (c s : ℝ) : MultipliesRows (stepRx c s) ⟨c, 0⟩ ⟨0, s⟩ ⟨0, s⟩ ⟨c, 0⟩ := by
  intro v w
  constructor <;> apply Complex.ext <;> simp [stepRx]

theorem multiplies_stepRy (c s : ℝ) :
    MultipliesRows (stepRy c s) ⟨c, 0⟩ ⟨s, 0⟩ ⟨-s, 0⟩ ⟨c, 0⟩ := by
  intro v w
  constructor <;> apply Complex.ext <;> simp [stepRy]

theorem multiplies_stepU (c s phi lam : ℝ) :
    MultipliesRows (stepU c (Cplx.scale s (Cplx.cis lam)) (Cplx.scale s (Cplx.cis phi))
      (Cplx.scale c (Cplx.cis (phi + lam))))
      (Cplx.ofReal c) (-Cplx.polar s lam) (Cplx.polar s phi) (Cplx.polar c (phi + lam)) := by
  intro v w
  constructor
  · simp [stepU, mul_assoc, sub_eq_add_neg]
  · simp [stepU, mul_assoc]

theorem shows_action (h : Shows n buffer ψ) {g : Gate ℝ} {q : ℕ} (hq : g.qubits = [q])
    {a b c d : Cplx ℝ} (hg : g.entries = rows2 a b c d) (hlt : q < n)
    {step : Cplx ℝ → Cplx ℝ → Cplx ℝ × Cplx ℝ} (hstep : MultipliesRows step a b c d) :
    Shows n (updateQubit q step buffer) (g.action ψ) := by
  rw [Gate.action_of_qubits_eq hq, Gate.unitary_rows2 hg]
  exact shows_updateQubit h hlt hstep

theorem shows_turnWhere_action (h : Shows n buffer ψ) {g : Gate ℝ} {q : ℕ} (hq : g.qubits = [q])
    {a : Cplx ℝ} (hg : g.entries = diagonal a) {angle : ℝ}
    (ha : a.toComplex = Complex.exp (angle * Complex.I)) :
    Shows n (turnWhere q angle buffer) (g.action ψ) := by
  rw [Gate.action_of_qubits_eq hq, Gate.unitary_rows2 hg, ha]
  exact shows_turnWhere h q angle

theorem sqrt_half : Scalar.sqrt (Scalar.half : ℝ) = 1 / Scalar.sqrt Scalar.two := by
  simp

/-- The kernel of a gate leaves a buffer that shows the action of the gate. -/
theorem shows_apply (h : Shows n buffer ψ) {g : Gate ℝ} (hg : g.Fits n) :
    Shows n (g.apply buffer) (g.action ψ) := by
  have hn := hg.nodup
  have hlt := hg.lt
  cases g with
  | x q =>
    have hs := shows_flipControlled h List.not_mem_nil (hlt q List.mem_cons_self)
    rwa [Ket.controlled_nil, ← Gate.action_x] at hs
  | y q => exact shows_action h rfl rfl (hlt q List.mem_cons_self) multiplies_stepY
  | z q =>
    have hs := shows_negateWhere h [] q
    rwa [Ket.controlled_nil, ← Gate.action_z] at hs
  | h q =>
    refine shows_action h rfl rfl (hlt q List.mem_cons_self) ?_
    rw [sqrt_half]
    exact multiplies_stepH _
  | s q => exact shows_turnWhere_action h rfl rfl toComplex_i
  | sdag q => exact shows_turnWhere_action h rfl rfl toComplex_neg_i
  | t q => exact shows_turnWhere_action h rfl rfl (Cplx.toComplex_cis _)
  | tdag q => exact shows_turnWhere_action h rfl rfl (Cplx.toComplex_cis _)
  | sqrtX q => exact shows_applyMatrix_gate h hg
  | sqrtXdag q => exact shows_applyMatrix_gate h hg
  | rx q theta =>
    exact shows_action h rfl rfl (hlt q List.mem_cons_self) (multiplies_stepRx _ _)
  | ry q theta =>
    exact shows_action h rfl rfl (hlt q List.mem_cons_self) (multiplies_stepRy _ _)
  | rz q theta =>
    rw [Gate.action_of_qubits_eq (q := q) rfl, Gate.unitary_rows2 (g := .rz q theta) rfl,
      Cplx.toComplex_cis, Cplx.toComplex_cis]
    exact shows_turnEach h q _ _
  | u1 q lam => exact shows_turnWhere_action h rfl rfl (Cplx.toComplex_cis _)
  | u2 q phi lam =>
    exact shows_action h rfl rfl (hlt q List.mem_cons_self) (multiplies_stepU _ _ phi lam)
  | u3 q theta phi lam =>
    exact shows_action h rfl rfl (hlt q List.mem_cons_self) (multiplies_stepU _ _ phi lam)
  | cnot c q =>
    have hne : c ≠ q := by simpa [Gate.qubits] using hn
    rw [Gate.action_cnot hne]
    exact shows_flipControlled h (by simpa using hne.symm) (hlt q (by simp [Gate.qubits]))
  | cz c q =>
    have hne : c ≠ q := by simpa [Gate.qubits] using hn
    rw [Gate.action_cz hne]
    exact shows_negateWhere h [c] q
  | swap a b =>
    have hne : a ≠ b := by simpa [Gate.qubits] using hn
    have hs := shows_swapControlled h hne List.not_mem_nil List.not_mem_nil
      (hlt a (by simp [Gate.qubits])) (hlt b (by simp [Gate.qubits]))
    rwa [Ket.controlled_nil, ← Gate.action_swap hne] at hs
  | toffoli c d q =>
    have hq : q ∉ [c, d] := by
      simp only [Gate.qubits, List.nodup_cons] at hn
      grind
    rw [Gate.action_toffoli hn]
    exact shows_flipControlled h hq (hlt q (by simp [Gate.qubits]))
  | fredkin c a b =>
    obtain ⟨hab, hca, hcb⟩ : a ≠ b ∧ a ∉ [c] ∧ b ∉ [c] := by
      simp only [Gate.qubits, List.nodup_cons] at hn
      grind
    rw [Gate.action_fredkin hn]
    exact shows_swapControlled h hab hca hcb (hlt a (by simp [Gate.qubits]))
      (hlt b (by simp [Gate.qubits]))

theorem applyOn_eq_apply (device : Device) {g : Gate ℝ} (hg : g.Fits n)
    (hsize : buffer.size = 2 ^ n) :
    applyOn device g.qubits g.matrix buffer = g.apply buffer := by
  obtain ⟨ψ, h⟩ := exists_shows hsize
  rw [applyOn_eq_applyMatrix device hg.nodup hg.lt g.matrix hsize]
  exact (shows_applyMatrix_gate h hg).eq (shows_apply h hg)

end KetSim.Engine

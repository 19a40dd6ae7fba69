import KetSim.Proofs.Engine.Density

/-! # Observables are Hermitian

A product of Pauli factors on different qubits sends a basis state to another one
and back with conjugate factors. In exact arithmetic its value in a state is
therefore real, and so is the value of a real combination of such products.
-/
namespace KetSim.Engine

/-! ## Parity of set bits -/

theorem bitCount_eq_countP {x n : ℕ} (h : x < 2 ^ n) :
    bitCount x = (List.range n).countP x.testBit := by
  have hclear (p : ℕ) (hp : x.log2 + 1 ≤ p) : x.testBit p = false := by
    have hx : x < 2 ^ (x.log2 + 1) := Nat.lt_log2_self
    exact Ket.testBit_of_le hx hp
  have hsame (n m : ℕ) (hm : ∀ p, n ≤ p → x.testBit p = false) :
      (List.range (n + m)).countP x.testBit = (List.range n).countP x.testBit := by
    induction m with
    | zero => rfl
    | succ m ih => simp [← Nat.add_assoc, List.range_succ, ih, hm (n + m) (by omega)]
  have hlog := hsame (x.log2 + 1) n hclear
  have hn := hsame n (x.log2 + 1) fun p hp => Ket.testBit_of_le h hp
  rw [bitCount, ← hlog, ← hn, Nat.add_comm]

theorem countP_bne_mod_two (f g : ℕ → Bool) (ps : List ℕ) :
    ps.countP (fun p => f p != g p) % 2 = (ps.countP f + ps.countP g) % 2 := by
  induction ps with
  | nil => rfl
  | cons p rest ih =>
    simp only [List.countP_cons]
    cases f p <;> cases g p <;> simp at ih ⊢ <;> omega

theorem bitCount_xor_mod_two (x y : ℕ) :
    bitCount (x ^^^ y) % 2 = (bitCount x + bitCount y) % 2 := by
  have hx : x < 2 ^ (x + y) :=
    (Nat.lt_two_pow_self).trans_le (Nat.pow_le_pow_right two_pos (by omega))
  have hy : y < 2 ^ (x + y) :=
    (Nat.lt_two_pow_self).trans_le (Nat.pow_le_pow_right two_pos (by omega))
  have hbits : (x ^^^ y).testBit = fun p => x.testBit p != y.testBit p := by
    funext p
    rw [Nat.testBit_xor]
  rw [bitCount_eq_countP hx, bitCount_eq_countP hy, bitCount_eq_countP (Nat.xor_lt_two_pow hx hy),
    hbits, countP_bne_mod_two]

theorem bitCount_two_pow (q : ℕ) : bitCount (2 ^ q) = 1 := by
  have hq : 2 ^ q < 2 ^ (q + 1) := Nat.pow_lt_pow_right (by omega) (by omega)
  have hnone : (List.range q).countP (2 ^ q).testBit = 0 := by
    rw [List.countP_eq_zero]
    intro p hp
    have hne : q ≠ p := by
      have hlt := List.mem_range.mp hp
      omega
    simp [hne]
  rw [bitCount_eq_countP hq, List.range_succ, List.countP_append, hnone]
  simp

/-! ## Masks of Pauli products -/

/-- The masks of factors on the listed qubits: a bit is flipped and signed once for each `Y`. -/
structure Masks.Tracks (m : Masks) (qubits : List ℕ) : Prop where
  flip : ∀ q ∉ qubits, m.flip.testBit q = false
  sign : ∀ q ∉ qubits, m.sign.testBit q = false
  ys : bitCount (m.flip &&& m.sign) % 2 = m.ys % 2

theorem lor_two_pow_and {x y q : ℕ} (hy : y.testBit q = false) :
    (x ||| 2 ^ q) &&& y = x &&& y := by
  apply Nat.eq_of_testBit_eq
  intro p
  by_cases hp : q = p
  · subst hp
    simp [hy]
  · simp [hp]

theorem lor_two_pow_and_lor {x y q : ℕ} (hx : x.testBit q = false) :
    (x ||| 2 ^ q) &&& (y ||| 2 ^ q) = (x &&& y) ^^^ 2 ^ q := by
  apply Nat.eq_of_testBit_eq
  intro p
  by_cases hp : q = p
  · subst hp
    simp [hx]
  · simp [hp]

theorem testBit_lor_two_pow {x q : ℕ} {qubits : List ℕ}
    (hx : ∀ p ∉ qubits, x.testBit p = false) {p : ℕ} (hp : p ∉ q :: qubits) :
    (x ||| 2 ^ q).testBit p = false := by
  simp only [List.mem_cons, not_or] at hp
  simp [hx p hp.2, Ne.symm hp.1]

theorem Masks.Tracks.add {m : Masks} {qubits : List ℕ} (h : m.Tracks qubits) {op : ℕ × Axis}
    (hop : op.1 ∉ qubits) : (m.add op).Tracks (op.1 :: qubits) := by
  obtain ⟨q, axis⟩ := op
  obtain ⟨hflip, hsign, hys⟩ := h
  have hkept {x p : ℕ} (hx : ∀ r ∉ qubits, x.testBit r = false) (hp : p ∉ q :: qubits) :
      x.testBit p = false := hx p fun hmem => hp (List.mem_cons_of_mem q hmem)
  cases axis with
  | x =>
    refine ⟨fun p hp => testBit_lor_two_pow hflip hp, fun p hp => hkept hsign hp, ?_⟩
    simpa only [Masks.add, lor_two_pow_and (hsign q hop)] using hys
  | y =>
    have hxor := bitCount_xor_mod_two (m.flip &&& m.sign) (2 ^ q)
    rw [bitCount_two_pow] at hxor
    refine ⟨fun p hp => testBit_lor_two_pow hflip hp, fun p hp => testBit_lor_two_pow hsign hp, ?_⟩
    simp only [Masks.add, lor_two_pow_and_lor (hflip q hop)]
    omega
  | z =>
    refine ⟨fun p hp => hkept hflip hp, fun p hp => testBit_lor_two_pow hsign hp, ?_⟩
    simpa only [Masks.add, Nat.and_comm m.flip, lor_two_pow_and (hflip q hop)] using hys

/-- The masks of a product of factors on different qubits. -/
theorem Masks.tracks_foldl {ops : List (ℕ × Axis)} (h : (ops.map (·.1)).Nodup) :
    (ops.foldl Masks.add {}).Tracks (ops.map (·.1)).reverse := by
  induction ops using List.reverseRecOn with
  | nil => exact ⟨fun q _ => Nat.zero_testBit q, fun q _ => Nat.zero_testBit q, rfl⟩
  | append_singleton rest op ih =>
    rw [List.map_append, List.nodup_append] at h
    obtain ⟨hrest, -, hfresh⟩ := h
    rw [List.foldl_append, List.map_append, List.reverse_append]
    exact (ih hrest).add fun hop =>
      hfresh op.1 (List.mem_reverse.mp hop) op.1 (List.mem_singleton.mpr rfl) rfl

theorem Masks.toComplex_phase (m : Masks) (x : ℕ) :
    (m.phase x : Cplx ℝ).toComplex = (-1) ^ bitCount (x &&& m.sign) * Complex.I ^ m.ys := by
  have hfour : m.ys % 4 < 4 := Nat.mod_lt _ (by omega)
  rw [phase, Cplx.toComplex_scale, Complex.I_pow_eq_pow_mod m.ys, neg_one_pow_eq_pow_mod_two]
  congr 1
  · rcases Nat.mod_two_eq_zero_or_one (bitCount (x &&& m.sign)) with h | h <;> simp [h]
  · interval_cases m.ys % 4
    · rfl
    · simp [Complex.ext_iff]
    · simp [Complex.ext_iff]
    · simp [Complex.ext_iff]

/-- The factor on the way back is the conjugate of the factor on the way there. -/
theorem Masks.phase_xor_flip {m : Masks} (h : bitCount (m.flip &&& m.sign) % 2 = m.ys % 2)
    (i : ℕ) : (m.phase (i ^^^ m.flip) : Cplx ℝ).toComplex =
      starRingEnd ℂ (m.phase i : Cplx ℝ).toComplex := by
  have hsplit : (i ^^^ m.flip) &&& m.sign = (i &&& m.sign) ^^^ (m.flip &&& m.sign) := by
    apply Nat.eq_of_testBit_eq
    intro p
    simp only [Nat.testBit_and, Nat.testBit_xor]
    cases m.sign.testBit p <;> simp
  have hparity : bitCount ((i ^^^ m.flip) &&& m.sign) % 2 =
      (bitCount (i &&& m.sign) + m.ys) % 2 := by
    rw [hsplit, bitCount_xor_mod_two]
    omega
  -- an odd number of flips by `Y` gives the sign that conjugation gives the powers of `i`
  rw [toComplex_phase, toComplex_phase, neg_one_pow_eq_pow_mod_two, hparity,
    ← neg_one_pow_eq_pow_mod_two, pow_add, mul_assoc, ← mul_pow]
  simp

/-! ## Observables -/

/-- The factors of a product lie on different qubits of a register. -/
structure Placed (n : ℕ) (ops : List (ℕ × Axis)) : Prop where
  lt : ∀ op ∈ ops, op.1 < n
  nodup : (ops.map (·.1)).Nodup

/-- What adding products to the empty observable on `m` qubits gives. -/
inductive Observable.Assembled {α : Type} (m : ℕ) : Observable α → Prop
  | empty : Assembled m (.empty m)
  | add {o o' : Observable α} {coeff : α} {ops : List (ℕ × Axis)} (h : Assembled m o)
      (hadd : o.add coeff ops = .ok o') : Assembled m o'

section Assembled

variable {α : Type} {m : ℕ} {o o' : Observable α}

theorem Observable.add_eq_ok {coeff : α} {ops : List (ℕ × Axis)} :
    o.add coeff ops = .ok o' ↔
      Placed o.numQubits ops ∧ { o with terms := o.terms ++ [⟨coeff, ops⟩] } = o' := by
  unfold add
  rw [bind_unit_eq_ok, checkDistinct_eq_ok, Except.ok.injEq]
  refine and_congr_left fun _ =>
    ⟨fun ⟨hlt, hn⟩ => ⟨fun op hop => ?_, hn⟩, fun ⟨hlt, hn⟩ => ⟨?_, hn⟩⟩
  · exact (hlt op.1 (List.mem_map_of_mem hop)).1
  · intro q hq
    obtain ⟨op, hop, rfl⟩ := List.mem_map.mp hq
    exact ⟨hlt op hop, List.not_mem_nil⟩

theorem Observable.Assembled.numQubits (h : o.Assembled m) : o.numQubits = m := by
  induction h with
  | empty => rfl
  | add h hadd ih =>
    obtain ⟨-, rfl⟩ := add_eq_ok.mp hadd
    exact ih

theorem Observable.Assembled.placed (h : o.Assembled m) : ∀ t ∈ o.terms, Placed m t.ops := by
  induction h with
  | empty => exact fun t ht => absurd ht List.not_mem_nil
  | add h hadd ih =>
    obtain ⟨hops, rfl⟩ := add_eq_ok.mp hadd
    rw [h.numQubits] at hops
    exact List.forall_mem_append.mpr ⟨ih, fun t ht => List.mem_singleton.mp ht ▸ hops⟩

end Assembled

/-! ## Expectation values -/

/-- Entries that the flip pairs with their conjugates have a real sum. -/
theorem Masks.sum_phase_im {m : Masks} {n : ℕ} (hflip : m.flip < 2 ^ n)
    (hys : bitCount (m.flip &&& m.sign) % 2 = m.ys % 2) {f : ℕ → ℕ → ℂ}
    (hf : ∀ r < 2 ^ n, ∀ c < 2 ^ n, starRingEnd ℂ (f r c) = f c r) :
    (∑ r ∈ Finset.range (2 ^ n), f r (r ^^^ m.flip) * (m.phase r : Cplx ℝ).toComplex).im = 0 := by
  have hback (r : ℕ) : (r ^^^ m.flip) ^^^ m.flip = r := Nat.xor_xor_cancel_right r m.flip
  have hlt {r : ℕ} (hr : r ∈ Finset.range (2 ^ n)) : r ^^^ m.flip < 2 ^ n :=
    Nat.xor_lt_two_pow (Finset.mem_range.mp hr) hflip
  rw [← Complex.conj_eq_iff_im, map_sum]
  refine Finset.sum_nbij' (· ^^^ m.flip) (· ^^^ m.flip) (fun r hr => Finset.mem_range.mpr (hlt hr))
    (fun r hr => Finset.mem_range.mpr (hlt hr)) (fun r _ => hback r) (fun r _ => hback r) ?_
  intro r hr
  rw [map_mul, hf r (Finset.mem_range.mp hr) _ (hlt hr), hback, phase_xor_flip hys]

theorem toComplex_sum_range (f : ℕ → Cplx ℝ) (n : ℕ) :
    (Cplx.sum ((List.range n).map f)).toComplex = ∑ i ∈ Finset.range n, (f i).toComplex := by
  rw [Cplx.toComplex_sum, List.map_map]
  rfl

theorem StateVector.toComplex_pauliValue {s : StateVector ℝ}
    (hs : s.amplitudes.size = 2 ^ s.numQubits) (m : Masks) :
    (s.pauliValue m).toComplex = ∑ i ∈ Finset.range (2 ^ s.numQubits),
      starRingEnd ℂ (s.amplitude (i ^^^ m.flip)).toComplex * (s.amplitude i).toComplex *
        (m.phase i : Cplx ℝ).toComplex := by
  rw [pauliValue_real, pauliTerms, toList_amplitudes hs, zipIdx_map_range, List.map_map,
    toComplex_sum_range]
  apply Finset.sum_congr rfl
  intro i _
  rw [Function.comp_apply, Cplx.toComplex_mul, Cplx.toComplex_mul, Cplx.toComplex_conj,
    mul_right_comm]

theorem DensityMatrix.toComplex_pauliValue (d : DensityMatrix ℝ) (m : Masks) :
    (d.pauliValue m).toComplex = ∑ r ∈ Finset.range (2 ^ d.numQubits),
      (d.get r (r ^^^ m.flip)).toComplex * (m.phase r : Cplx ℝ).toComplex := by
  rw [pauliValue, dim, toComplex_sum_range]
  exact Finset.sum_congr rfl fun r _ => Cplx.toComplex_mul _ _

/-- The values of products are weighed by real numbers. -/
theorem toComplex_weightedSum {value : Masks → Cplx ℝ} {terms : List (Term ℝ)}
    {f : Term ℝ → ℂ} (h : ∀ t ∈ terms, (value t.masks).toComplex = f t) :
    (weightedSum value terms).toComplex = (terms.map fun t => (t.coeff : ℂ) * f t).sum := by
  have hsum : weightedSum value terms =
      Cplx.sum (terms.map fun t => Cplx.scale t.coeff (value t.masks)) := by
    rw [Cplx.sum, List.foldl_map, weightedSum]
  rw [hsum, Cplx.toComplex_sum, List.map_map]
  apply congrArg List.sum
  apply List.map_congr_left
  intro t ht
  rw [Function.comp_apply, Cplx.toComplex_scale, h t ht]

theorem Observable.Assembled.weightedSum_im {m n : ℕ} {o : Observable ℝ} (ho : o.Assembled m)
    (hmn : m ≤ n) {value : Masks → Cplx ℝ}
    (h : ∀ masks : Masks, masks.flip < 2 ^ n →
      bitCount (masks.flip &&& masks.sign) % 2 = masks.ys % 2 → (value masks).im = 0) :
    (weightedSum value o.terms).im = 0 := by
  have hreal (t : Term ℝ) (ht : t ∈ o.terms) :
      (value t.masks).toComplex = ((value t.masks).re : ℂ) := by
    have hplaced := ho.placed t ht
    have hflip : t.masks.flip < 2 ^ m := flip_foldl_add hplaced.lt (Nat.two_pow_pos m)
    exact Complex.ext rfl (h t.masks (hflip.trans_le (Nat.pow_le_pow_right two_pos hmn))
      (Masks.tracks_foldl hplaced.nodup).ys)
  have hcast : (o.terms.map fun t => (t.coeff : ℂ) * ((value t.masks).re : ℂ)).sum =
      ((o.terms.map fun t => t.coeff * (value t.masks).re).sum : ℝ) := by
    rw [← Complex.ofRealHom_eq_coe, map_list_sum, List.map_map]
    simp [Function.comp_def]
  rw [← Cplx.toComplex_im, toComplex_weightedSum hreal, hcast, Complex.ofReal_im]

theorem StateVector.expectation_eq_ok {α : Type} [Scalar α] {s : StateVector α} {o : Observable α}
    {value : Cplx α} : s.expectation o = .ok value ↔
      o.numQubits ≤ s.numQubits ∧ weightedSum s.pauliValue o.terms = value := by
  rw [expectation, bind_unit_eq_ok, checkObservable_eq_ok, Except.ok.injEq]

theorem DensityMatrix.expectation_eq_ok {α : Type} [Scalar α] {d : DensityMatrix α}
    {o : Observable α} {value : Cplx α} : d.expectation o = .ok value ↔
      o.numQubits ≤ d.numQubits ∧ weightedSum d.pauliValue o.terms = value := by
  rw [expectation, bind_unit_eq_ok, checkObservable_eq_ok, Except.ok.injEq]

/-- The value of an observable in a state is real. -/
theorem StateVector.expectation_im {s : StateVector ℝ}
    (hs : s.amplitudes.size = 2 ^ s.numQubits) {m : ℕ} {o : Observable ℝ} (ho : o.Assembled m)
    {value : Cplx ℝ} (h : s.expectation o = .ok value) : value.im = 0 := by
  obtain ⟨hle, rfl⟩ := expectation_eq_ok.mp h
  refine ho.weightedSum_im (ho.numQubits.symm.trans_le hle) fun masks hflip hys => ?_
  rw [← Cplx.toComplex_im, toComplex_pauliValue hs]
  refine Masks.sum_phase_im (f := fun r c =>
    starRingEnd ℂ (s.amplitude c).toComplex * (s.amplitude r).toComplex) hflip hys fun r _ c _ => ?_
  rw [map_mul, Complex.conj_conj, mul_comm]

/-- The value of an observable in a Hermitian density matrix is real. -/
theorem DensityMatrix.expectation_im {d : DensityMatrix ℝ}
    (hd : ∀ r < 2 ^ d.numQubits, ∀ c < 2 ^ d.numQubits,
      starRingEnd ℂ (d.get r c).toComplex = (d.get c r).toComplex) {m : ℕ} {o : Observable ℝ}
    (ho : o.Assembled m) {value : Cplx ℝ} (h : d.expectation o = .ok value) : value.im = 0 := by
  obtain ⟨hle, rfl⟩ := expectation_eq_ok.mp h
  refine ho.weightedSum_im (ho.numQubits.symm.trans_le hle) fun masks hflip hys => ?_
  rw [← Cplx.toComplex_im, toComplex_pauliValue]
  exact Masks.sum_phase_im hflip hys hd

end KetSim.Engine

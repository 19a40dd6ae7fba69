import Mathlib
import KetSim.Engine.Program
import KetSim.Proofs.Engine.Device

/-! # Renamed qubits

The engine does not mind the numbers of its qubits. If a permutation renames the
qubits of all gates, every kernel leaves the entries that it would have left before,
each at the index with the renamed bits. The sweeps then visit the pairs in another order,
and no law of arithmetic is needed to see that this does not matter.
-/
namespace KetSim.Engine

/-- A permutation of the qubits of a register, and the basis indices with the permuted bits. -/
structure Renaming (n : ℕ) where
  wire : ℕ → ℕ
  index : ℕ → ℕ
  bijOn : Set.BijOn wire (Set.Iio n) (Set.Iio n)
  index_lt : ∀ x < 2 ^ n, index x < 2 ^ n
  testBit_index : ∀ x < 2 ^ n, ∀ q < n, (index x).testBit (wire q) = x.testBit q

namespace Renaming

variable {n : ℕ} (r : Renaming n)

theorem wire_lt {q : ℕ} (hq : q < n) : r.wire q < n := r.bijOn.mapsTo hq

theorem wire_inj {p q : ℕ} (hp : p < n) (hq : q < n) : r.wire p = r.wire q ↔ p = q :=
  r.bijOn.injOn.eq_iff hp hq

theorem mem_map_wire {targets : List ℕ} (ht : ∀ q ∈ targets, q < n) {q : ℕ} (hq : q < n) :
    r.wire q ∈ targets.map r.wire ↔ q ∈ targets := by
  rw [List.mem_map]
  constructor
  · rintro ⟨p, hp, hpq⟩
    rwa [← (r.wire_inj (ht p hp) hq).mp hpq]
  · exact fun h => ⟨q, h, rfl⟩

theorem nodup_map_wire {targets : List ℕ} (ht : ∀ q ∈ targets, q < n) (hn : targets.Nodup) :
    (targets.map r.wire).Nodup :=
  hn.map_on fun p hp q hq h => (r.wire_inj (ht p hp) (ht q hq)).mp h

theorem map_wire_lt {targets : List ℕ} (ht : ∀ q ∈ targets, q < n) :
    ∀ q ∈ targets.map r.wire, q < n := by
  intro q hq
  obtain ⟨p, hp, rfl⟩ := List.mem_map.mp hq
  exact r.wire_lt (ht p hp)

/-! ## Indices -/

/-- The bits at the renamed qubits are all the bits of an index. -/
theorem ext_index {x y : ℕ} (hx : x < 2 ^ n) (hy : y < 2 ^ n)
    (h : ∀ q < n, x.testBit (r.wire q) = y.testBit (r.wire q)) : x = y := by
  apply Nat.eq_of_testBit_eq
  intro p
  by_cases hp : p < n
  · obtain ⟨q, hq, rfl⟩ := r.bijOn.surjOn hp
    exact h q hq
  · rw [Ket.testBit_of_le hx (not_lt.mp hp), Ket.testBit_of_le hy (not_lt.mp hp)]

theorem index_injOn {x y : ℕ} (hx : x < 2 ^ n) (hy : y < 2 ^ n) (h : r.index x = r.index y) :
    x = y := by
  apply Nat.eq_of_testBit_eq
  intro q
  by_cases hq : q < n
  · rw [← r.testBit_index x hx q hq, h, r.testBit_index y hy q hq]
  · rw [Ket.testBit_of_le hx (not_lt.mp hq), Ket.testBit_of_le hy (not_lt.mp hq)]

theorem exists_index {y : ℕ} (hy : y < 2 ^ n) : ∃ x < 2 ^ n, r.index x = y := by
  have hmaps : Set.MapsTo r.index (Finset.range (2 ^ n)) (Finset.range (2 ^ n)) := by
    intro x hx
    rw [Finset.coe_range, Set.mem_Iio] at hx ⊢
    exact r.index_lt x hx
  have hinj : Set.InjOn r.index (Finset.range (2 ^ n)) := by
    intro x hx x' hx' h
    rw [Finset.coe_range, Set.mem_Iio] at hx hx'
    exact r.index_injOn hx hx' h
  obtain ⟨x, hx, hxy⟩ := Finset.surjOn_of_injOn_of_card_le r.index hmaps hinj le_rfl
    (Finset.mem_coe.mpr (Finset.mem_range.mpr hy))
  exact ⟨x, Finset.mem_range.mp (Finset.mem_coe.mp hx), hxy⟩

theorem index_zero : r.index 0 = 0 := by
  apply r.ext_index (r.index_lt 0 (by positivity)) (by positivity)
  intro q hq
  rw [r.testBit_index 0 (by positivity) q hq]
  simp

theorem index_xor_pair {x a b : ℕ} (hx : x < 2 ^ n) (ha : a < n) (hb : b < n) :
    r.index x ^^^ (2 ^ r.wire a ||| 2 ^ r.wire b) = r.index (x ^^^ (2 ^ a ||| 2 ^ b)) := by
  have hflip := xor_pair_lt ha hb hx
  refine r.ext_index (xor_pair_lt (r.wire_lt ha) (r.wire_lt hb) (r.index_lt x hx))
    (r.index_lt _ hflip) fun q hq => ?_
  rw [r.testBit_index _ hflip q hq, testBit_xor_pair_apply, testBit_xor_pair_apply,
    r.testBit_index x hx q hq]
  simp only [r.wire_inj ha hq, r.wire_inj hb hq]

theorem index_xor_two_pow {x q : ℕ} (hx : x < 2 ^ n) (hq : q < n) :
    r.index x ^^^ 2 ^ r.wire q = r.index (x ^^^ 2 ^ q) := by
  have hpair := r.index_xor_pair hx hq hq
  rwa [Nat.or_self, Nat.or_self] at hpair

theorem all_testBit_index {controls : List ℕ} (hc : ∀ q ∈ controls, q < n) {x : ℕ}
    (hx : x < 2 ^ n) :
    (controls.map r.wire).all (r.index x).testBit = controls.all x.testBit := by
  rw [List.all_map, Bool.eq_iff_iff, List.all_eq_true, List.all_eq_true]
  apply forall₂_congr
  intro q hq
  rw [Function.comp_apply, r.testBit_index x hx q (hc q hq)]

theorem testBit_deposit_map {targets : List ℕ} (ht : ∀ q ∈ targets, q < n) {q : ℕ} (hq : q < n)
    (l : ℕ) :
    (deposit (targets.map r.wire) l).testBit (r.wire q) = (deposit targets l).testBit q := by
  induction targets generalizing l with
  | nil => simp [deposit]
  | cons p rest ih =>
    obtain ⟨hp, hrest⟩ := List.forall_mem_cons.mp ht
    rw [List.map_cons, testBit_deposit_cons, testBit_deposit_cons, ih hrest]
    simp only [r.wire_inj hp hq]

theorem member_index {targets : List ℕ} (ht : ∀ q ∈ targets, q < n) (hn : targets.Nodup) {x : ℕ}
    (hx : x < 2 ^ n) (l : ℕ) :
    member (targets.map r.wire) (r.index x) l = r.index (member targets x l) := by
  have hmember := member_lt hn ht hx l
  refine r.ext_index (member_lt (r.nodup_map_wire ht hn) (r.map_wire_lt ht) (r.index_lt x hx) l)
    (r.index_lt _ hmember) fun q hq => ?_
  rw [r.testBit_index _ hmember q hq, member, member, Nat.testBit_or, Nat.testBit_or,
    testBit_cleared, testBit_cleared, r.testBit_deposit_map ht hq, r.testBit_index x hx q hq]
  simp only [r.mem_map_wire ht hq]

theorem gather_index {targets : List ℕ} (ht : ∀ q ∈ targets, q < n) {x : ℕ} (hx : x < 2 ^ n) :
    Ket.gather (r.index x).testBit (targets.map r.wire) = Ket.gather x.testBit targets := by
  induction targets with
  | nil => rfl
  | cons q rest ih =>
    obtain ⟨hq, hrest⟩ := List.forall_mem_cons.mp ht
    rw [List.map_cons, Ket.gather, Ket.gather, r.testBit_index x hx q hq, ih hrest]

end Renaming

/-! ## Buffers -/

/-- The second buffer holds the entries of the first one at the renamed indices. -/
structure Renamed {β : Type} {n : ℕ} (r : Renaming n) (d : β) (buffer renamed : Array β) :
    Prop where
  size : buffer.size = 2 ^ n
  size_renamed : renamed.size = 2 ^ n
  entry : ∀ x < 2 ^ n, renamed.getD (r.index x) d = buffer.getD x d

theorem paired_congr {β : Type} {selected selected' : ℕ → Bool} {mirror mirror' f : ℕ → ℕ}
    {v v' : ℕ → β} (step : β → β → β × β) {x : ℕ} (hmirror : mirror' (f x) = f (mirror x))
    (hx : selected' (f x) = selected x) (hm : selected' (f (mirror x)) = selected (mirror x))
    (hv : v' (f x) = v x) (hvm : v' (f (mirror x)) = v (mirror x)) :
    paired selected' mirror' step v' (f x) = paired selected mirror step v x := by
  simp only [paired, hmirror, hx, hm, hv, hvm]

namespace Renamed

variable {β : Type} {n : ℕ} {r : Renaming n} {d : β} {buffer renamed : Array β}

theorem map {γ : Type} (h : Renamed r d buffer renamed) (f : β → γ) (d' : γ) :
    Renamed r d' (buffer.map f) (renamed.map f) := by
  refine ⟨by rw [Array.size_map, h.size], by rw [Array.size_map, h.size_renamed], ?_⟩
  intro x hx
  have hlt : x < buffer.size := by rwa [h.size]
  have hlt' : r.index x < renamed.size := by
    rw [h.size_renamed]
    exact r.index_lt x hx
  have hentry := h.entry x hx
  simp only [Array.getD_eq_getD_getElem?, Array.getElem?_map, Array.getElem?_eq_getElem hlt,
    Array.getElem?_eq_getElem hlt', Option.map_some, Option.getD_some] at hentry ⊢
  rw [hentry]

theorem sweepPairs_bit (h : Renamed r d buffer renamed) {controls : List ℕ} {q : ℕ}
    (hcn : ∀ c ∈ controls, c < n) (hc : q ∉ controls) (hq : q < n) (step : β → β → β × β) :
    Renamed r d
      (sweepPairs (fun i => controls.all i.testBit && !i.testBit q) (· ||| 2 ^ q) step buffer)
      (sweepPairs (fun i => (controls.map r.wire).all i.testBit && !i.testBit (r.wire q))
        (· ||| 2 ^ r.wire q) step renamed) := by
  refine ⟨by rw [size_sweepPairs, h.size], by rw [size_sweepPairs, h.size_renamed], ?_⟩
  intro x hx
  have hflip : x ^^^ 2 ^ q < 2 ^ n := Nat.xor_lt_two_pow hx (Nat.pow_lt_pow_right (by omega) hq)
  have hselected {y : ℕ} (hy : y < 2 ^ n) :
      ((controls.map r.wire).all (r.index y).testBit && !(r.index y).testBit (r.wire q)) =
        (controls.all y.testBit && !y.testBit q) := by
    rw [r.all_testBit_index hcn hy, r.testBit_index y hy q hq]
  rw [getD_sweepPairs_bit h.size hc hq step d hx, getD_sweepPairs_bit h.size_renamed
    (mt (r.mem_map_wire hcn hq).mp hc) (r.wire_lt hq) step d (r.index_lt x hx)]
  exact paired_congr step (r.index_xor_two_pow hx hq) (hselected hx) (hselected hflip)
    (h.entry x hx) (h.entry _ hflip)

theorem sweepSwaps_pair (h : Renamed r d buffer renamed) {controls : List ℕ} {a b : ℕ}
    (hcn : ∀ c ∈ controls, c < n) (hab : a ≠ b) (hca : a ∉ controls) (hcb : b ∉ controls)
    (ha : a < n) (hb : b < n) :
    Renamed r d
      (sweepSwaps (fun i => controls.all i.testBit && i.testBit a && !i.testBit b)
        (fun i => (i ^^^ 2 ^ a) ||| 2 ^ b) buffer)
      (sweepSwaps (fun i => (controls.map r.wire).all i.testBit && i.testBit (r.wire a) &&
          !i.testBit (r.wire b))
        (fun i => (i ^^^ 2 ^ r.wire a) ||| 2 ^ r.wire b) renamed) := by
  refine ⟨by rw [size_sweepSwaps, h.size], by rw [size_sweepSwaps, h.size_renamed], ?_⟩
  intro x hx
  have hflip := xor_pair_lt ha hb hx
  have hselected {y : ℕ} (hy : y < 2 ^ n) :
      ((controls.map r.wire).all (r.index y).testBit && (r.index y).testBit (r.wire a) &&
          !(r.index y).testBit (r.wire b)) =
        (controls.all y.testBit && y.testBit a && !y.testBit b) := by
    rw [r.all_testBit_index hcn hy, r.testBit_index y hy a ha, r.testBit_index y hy b hb]
  rw [getD_sweepSwaps_pair h.size hab hca hcb ha hb d hx,
    getD_sweepSwaps_pair h.size_renamed (mt (r.wire_inj ha hb).mp hab)
      (mt (r.mem_map_wire hcn ha).mp hca) (mt (r.mem_map_wire hcn hb).mp hcb) (r.wire_lt ha)
      (r.wire_lt hb) d (r.index_lt x hx)]
  exact paired_congr _ (r.index_xor_pair hx ha hb) (hselected hx) (hselected hflip)
    (h.entry x hx) (h.entry _ hflip)

theorem sweepEach (h : Renamed r d buffer renamed) {step step' : ℕ → β → β}
    (hstep : ∀ x < 2 ^ n, ∀ a, step' (r.index x) a = step x a) :
    Renamed r d (sweepEach step buffer) (Engine.sweepEach step' renamed) := by
  refine ⟨by rw [size_sweepEach, h.size], by rw [size_sweepEach, h.size_renamed], ?_⟩
  intro x hx
  rw [getD_sweepEach step d (by rwa [h.size]),
    getD_sweepEach step' d (by rw [h.size_renamed]; exact r.index_lt x hx), hstep x hx,
    h.entry x hx]

end Renamed

/-! ## Gates -/

/-- The same gate on renamed qubits. -/
def Gate.rename {α : Type} (f : ℕ → ℕ) : Gate α → Gate α
  | .x q => .x (f q)
  | .y q => .y (f q)
  | .z q => .z (f q)
  | .h q => .h (f q)
  | .s q => .s (f q)
  | .sdag q => .sdag (f q)
  | .t q => .t (f q)
  | .tdag q => .tdag (f q)
  | .sqrtX q => .sqrtX (f q)
  | .sqrtXdag q => .sqrtXdag (f q)
  | .rx q theta => .rx (f q) theta
  | .ry q theta => .ry (f q) theta
  | .rz q theta => .rz (f q) theta
  | .u1 q lam => .u1 (f q) lam
  | .u2 q phi lam => .u2 (f q) phi lam
  | .u3 q theta phi lam => .u3 (f q) theta phi lam
  | .cnot c q => .cnot (f c) (f q)
  | .cz c q => .cz (f c) (f q)
  | .swap a b => .swap (f a) (f b)
  | .toffoli c d q => .toffoli (f c) (f d) (f q)
  | .fredkin c a b => .fredkin (f c) (f a) (f b)

@[simp] theorem Gate.qubits_rename {α : Type} (f : ℕ → ℕ) (g : Gate α) :
    (g.rename f).qubits = g.qubits.map f := by
  cases g <;> rfl

section

variable {α : Type} [Scalar α] {n : ℕ} {r : Renaming n} {buffer renamed : Array (Cplx α)}

@[simp] theorem Gate.matrix_rename (f : ℕ → ℕ) (g : Gate α) : (g.rename f).matrix = g.matrix := by
  cases g <;> rfl

omit [Scalar α] in
theorem Gate.Fits.rename {g : Gate α} (hg : g.Fits n) (r : Renaming n) :
    (g.rename r.wire).Fits n := by
  constructor
  · rw [qubits_rename]
    exact r.nodup_map_wire hg.lt hg.nodup
  · rw [qubits_rename]
    exact r.map_wire_lt hg.lt

namespace Renamed

theorem applyMatrix (h : Renamed r 0 buffer renamed) {targets : List ℕ} (hn : targets.Nodup)
    (ht : ∀ q ∈ targets, q < n) (m : Array (Cplx α)) :
    Renamed r 0 (applyMatrix targets m buffer)
      (Engine.applyMatrix (targets.map r.wire) m renamed) := by
  refine ⟨by rw [size_applyMatrix, h.size], by rw [size_applyMatrix, h.size_renamed], ?_⟩
  intro x hx
  rw [getD_applyMatrix hn ht h.size m hx, getD_applyMatrix (r.nodup_map_wire ht hn)
    (r.map_wire_lt ht) h.size_renamed m (r.index_lt x hx)]
  have hgroup : groupOf (targets.map r.wire) renamed (r.index x) = groupOf targets buffer x := by
    unfold groupOf
    rw [List.length_map]
    apply List.map_congr_left
    intro l _
    rw [r.member_index ht hn hx, h.entry _ (member_lt hn ht hx l)]
  rw [denseEntry, denseEntry, List.length_map, r.gather_index ht hx, hgroup]

theorem updateQubit (h : Renamed r 0 buffer renamed) {q : ℕ} (hq : q < n)
    (step : Cplx α → Cplx α → Cplx α × Cplx α) :
    Renamed r 0 (updateQubit q step buffer) (Engine.updateQubit (r.wire q) step renamed) := by
  have hnone : ∀ c ∈ ([] : List ℕ), c < n := fun c hc => absurd hc List.not_mem_nil
  have hpairs := h.sweepPairs_bit hnone List.not_mem_nil hq step
  simp only [List.map_nil, List.all_nil, Bool.true_and] at hpairs
  exact hpairs

theorem negateWhere (h : Renamed r 0 buffer renamed) {qubits : List ℕ}
    (hq : ∀ q ∈ qubits, q < n) :
    Renamed r 0 (negateWhere qubits buffer)
      (Engine.negateWhere (qubits.map r.wire) renamed) :=
  h.sweepEach fun x hx a => by rw [r.all_testBit_index hq hx]

theorem turnWhere (h : Renamed r 0 buffer renamed) {q : ℕ} (hq : q < n) (angle : α) :
    Renamed r 0 (turnWhere q angle buffer) (Engine.turnWhere (r.wire q) angle renamed) :=
  h.sweepEach fun x hx a => by rw [r.testBit_index x hx q hq]

theorem turnEach (h : Renamed r 0 buffer renamed) {q : ℕ} (hq : q < n) (clear set : α) :
    Renamed r 0 (turnEach q clear set buffer) (Engine.turnEach (r.wire q) clear set renamed) :=
  h.sweepEach fun x hx a => by rw [r.testBit_index x hx q hq]

/-- A kernel on renamed qubits leaves the renamed entries. -/
theorem apply (h : Renamed r 0 buffer renamed) {g : Gate α} (hg : g.Fits n) :
    Renamed r 0 (g.apply buffer) ((g.rename r.wire).apply renamed) := by
  have hn := hg.nodup
  have hlt := hg.lt
  have hnone : ∀ c ∈ ([] : List ℕ), c < n := fun c hc => absurd hc List.not_mem_nil
  cases g with
  | x q => exact h.sweepPairs_bit hnone List.not_mem_nil (hlt q List.mem_cons_self) _
  | y q | h q | rx q theta | ry q theta | u2 q phi lam | u3 q theta phi lam =>
    exact h.updateQubit (hlt q List.mem_cons_self) _
  | z q => exact h.negateWhere hlt
  | s q | sdag q | t q | tdag q | u1 q lam => exact h.turnWhere (hlt q List.mem_cons_self) _
  | rz q theta => exact h.turnEach (hlt q List.mem_cons_self) _ _
  | sqrtX q | sqrtXdag q => exact h.applyMatrix hn hlt _
  | cnot c q =>
    have hc : q ∉ [c] := by
      simp only [Gate.qubits, List.nodup_cons] at hn
      grind
    exact h.sweepPairs_bit (fun d hd => hlt d (List.mem_append_left [q] hd)) hc
      (hlt q (by simp [Gate.qubits])) _
  | cz c q => exact h.negateWhere hlt
  | swap a b =>
    have hab : a ≠ b := by simpa [Gate.qubits] using hn
    exact h.sweepSwaps_pair hnone hab List.not_mem_nil List.not_mem_nil
      (hlt a (by simp [Gate.qubits])) (hlt b (by simp [Gate.qubits]))
  | toffoli c d q =>
    have hq : q ∉ [c, d] := by
      simp only [Gate.qubits, List.nodup_cons] at hn
      grind
    exact h.sweepPairs_bit (fun e he => hlt e (List.mem_append_left [q] he)) hq
      (hlt q (by simp [Gate.qubits])) _
  | fredkin c a b =>
    obtain ⟨hab, hca, hcb⟩ : a ≠ b ∧ a ∉ [c] ∧ b ∉ [c] := by
      simp only [Gate.qubits, List.nodup_cons] at hn
      grind
    exact h.sweepSwaps_pair (fun d hd => hlt d (List.mem_append_left [a, b] hd)) hab hca hcb
      (hlt a (by simp [Gate.qubits])) (hlt b (by simp [Gate.qubits]))

theorem applyOn (h : Renamed r 0 buffer renamed) (device : Device) {g : Gate α} (hg : g.Fits n) :
    Renamed r 0 (applyOn device g.qubits g.matrix buffer)
      (Engine.applyOn device (g.rename r.wire).qubits (g.rename r.wire).matrix renamed) := by
  have hg' := hg.rename r
  rw [applyOn_eq_applyMatrix device hg.nodup hg.lt g.matrix h.size,
    applyOn_eq_applyMatrix device hg'.nodup hg'.lt _ h.size_renamed, Gate.matrix_rename,
    Gate.qubits_rename]
  exact h.applyMatrix hg.nodup hg.lt g.matrix

theorem keep (h : Renamed r 0 buffer renamed) (precision : Precision) :
    Renamed r 0 (keep precision buffer) (Engine.keep precision renamed) := by
  cases precision with
  | double => exact h
  | single => exact h.map Cplx.toSingle 0

end Renamed

/-! ## Runs -/

/-- Two state vectors of one register and one engine, the second one with renamed entries. -/
structure StateVector.Renamed (r : Renaming n) (s s' : StateVector α) : Prop where
  numQubits : s.numQubits = n
  numQubits_renamed : s'.numQubits = n
  options : s'.options = s.options
  amplitudes : Engine.Renamed r 0 s.amplitudes s'.amplitudes

theorem StateVector.Renamed.amplitude {s s' : StateVector α} (h : s.Renamed r s') {x : ℕ}
    (hx : x < 2 ^ n) : s'.amplitude (r.index x) = s.amplitude x :=
  h.amplitudes.entry x hx

theorem StateVector.Renamed.multiply {s s' : StateVector α} (h : s.Renamed r s')
    (factor : Cplx α) : (s.multiply factor).Renamed r (s'.multiply factor) := by
  rw [StateVector.multiply_eq, StateVector.multiply_eq]
  exact ⟨h.numQubits, h.numQubits_renamed, h.options, h.amplitudes.map (· * factor) 0⟩

/-- A gate and the renamed gate take renamed states to renamed states. -/
theorem StateVector.Renamed.applyGate {s s' : StateVector α} (h : s.Renamed r s') {g : Gate α}
    (hg : g.Fits n) : ∃ t t', s.applyGate g = .ok t ∧ s'.applyGate (g.rename r.wire) = .ok t' ∧
      t.Renamed r t' := by
  have hcheck : g.check s.numQubits = .ok () := by
    rw [h.numQubits]
    exact Gate.check_eq_ok.mpr hg
  have hcheck' : (g.rename r.wire).check s'.numQubits = .ok () := by
    rw [h.numQubits_renamed]
    exact Gate.check_eq_ok.mpr (hg.rename r)
  unfold StateVector.applyGate
  rw [hcheck, hcheck', h.options]
  refine ⟨_, _, rfl, rfl, h.numQubits, h.numQubits_renamed, rfl, ?_⟩
  cases s.options.device with
  | cpu => exact (h.amplitudes.apply hg).keep _
  | gpu => exact (h.amplitudes.applyOn .gpu hg).keep _

theorem StateVector.Renamed.applyGates {s s' : StateVector α} (h : s.Renamed r s')
    {gates : List (Gate α)} (hgates : ∀ g ∈ gates, g.Fits n) :
    ∃ t t', Program.applyGates gates (.vector s) = (.vector t, none) ∧
      Program.applyGates (gates.map (Gate.rename r.wire)) (.vector s') = (.vector t', none) ∧
      t.Renamed r t' := by
  induction gates generalizing s s' with
  | nil => exact ⟨s, s', rfl, rfl, h⟩
  | cons g rest ih =>
    obtain ⟨hg, hrest⟩ := List.forall_mem_cons.mp hgates
    obtain ⟨t, t', ht, ht', hrenamed⟩ := h.applyGate hg
    obtain ⟨u, u', hu, hu', hend⟩ := ih hrenamed hrest
    refine ⟨u, u', ?_, ?_, hend⟩
    · rw [Program.applyGates, State.applyGate, ht]
      exact hu
    · rw [List.map_cons, Program.applyGates, State.applyGate, ht']
      exact hu'

/-- The same program on renamed qubits. -/
def Program.rename {α : Type} (f : ℕ → ℕ) (p : Program α) : Program α :=
  { p with gates := p.gates.map (Gate.rename f) }

/-- The first basis state keeps its index under every renaming. -/
theorem StateVector.renamed_zero (r : Renaming n) {o : Options} {s : StateVector α}
    (h : StateVector.zero n o = .ok s) : s.Renamed r s := by
  obtain ⟨amplitudes, ha, hs⟩ := bind_eq_ok.mp h
  obtain rfl := Except.ok.inj hs
  unfold allocate at ha
  split at ha
  · cases ha
  split at ha
  · cases ha
  obtain rfl := Except.ok.inj ha
  refine ⟨rfl, rfl, rfl, by simp, by simp, ?_⟩
  intro x hx
  have hlt := r.index_lt x hx
  have hzero : 0 = r.index x ↔ 0 = x := by
    constructor
    · intro hx0
      rw [← r.index_zero] at hx0
      exact r.index_injOn (by positivity) hx hx0
    · rintro rfl
      exact r.index_zero.symm
  rw [getD_setIfInBounds, getD_setIfInBounds]
  simp [hzero, hx, hlt]

/-- Running the renamed program leaves the renamed state. -/
theorem Program.run_rename (r : Renaming n) {p : Program α} (hp : p.numQubits = n)
    (hgates : ∀ g ∈ p.gates, g.Fits n) {o : Options} {s : StateVector α}
    (hs : StateVector.zero n o = .ok s) :
    ∃ t t', p.run (.vector s) = (.vector t, none) ∧
      (p.rename r.wire).run (.vector s) = (.vector t', none) ∧ t.Renamed r t' := by
  have hstart := StateVector.renamed_zero r hs
  obtain ⟨t, t', ht, ht', h⟩ := hstart.applyGates hgates
  have hn : (State.vector s).numQubits = p.numQubits := hstart.numQubits.trans hp.symm
  refine ⟨t, t', ?_, ?_, h⟩
  · rw [run_eq_applyGates hn, ht]
  · rw [run_eq_applyGates (p := p.rename r.wire) hn]
    exact ht'

end

end KetSim.Engine

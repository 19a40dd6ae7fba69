import Mathlib
import KetSim.Proofs.Backend.Final
import KetSim.Proofs.Backend.States
import KetSim.Proofs.Backend.Submission
import KetSim.Proofs.Circuit.Alike
import KetSim.Proofs.Lowering.Renaming

/-! # Orders of basis states

Bits are reversed in two places: circuits are lowered onto the mirrored numbering,
and a result in decreasing order moves each entry to the reversed index. The two
cancel. A circuit run on the mirrored numbering has the entries of its plain run
at the reversed indices, whatever the arithmetic of the scalars is.
-/
namespace KetSim

/-! ## Reversed bits -/

theorem testBit_foldl_reverse {n m : ℕ} (hm : m ≤ n) (x p : ℕ) :
    ((List.range m).foldl (fun acc k => acc ||| ((x >>> k) &&& 1) <<< (n - 1 - k)) 0).testBit p =
      (decide (n - m ≤ p ∧ p < n) && x.testBit (n - 1 - p)) := by
  have hone (k : ℕ) : Nat.testBit 1 k = decide (k = 0) := by
    rw [Bool.eq_iff_iff, Nat.testBit_one_eq_true_iff_self_eq_zero, decide_eq_true_iff]
  induction m with
  | zero => grind
  | succ m ih =>
    rw [List.range_succ, List.foldl_append, List.foldl_cons, List.foldl_nil, Nat.testBit_or,
      ih (by omega), Nat.testBit_shiftLeft, Nat.testBit_and, Nat.testBit_shiftRight,
      hone]
    by_cases hp : p = n - 1 - m
    · rw [hp, show n - 1 - (n - 1 - m) = m by omega]
      grind
    · grind

theorem testBit_reverseBits (x n p : ℕ) :
    (reverseBits x n).testBit p = (decide (p < n) && x.testBit (n - 1 - p)) := by
  rw [reverseBits, testBit_foldl_reverse le_rfl]
  simp

theorem reverseBits_lt (x n : ℕ) : reverseBits x n < 2 ^ n := by
  apply Nat.lt_pow_two_of_testBit
  intro p hp
  rw [testBit_reverseBits]
  simp [not_lt.mpr hp]

theorem bijOn_mirror (n : ℕ) : Set.BijOn (fun q => n - 1 - q) (Set.Iio n) (Set.Iio n) := by
  refine ⟨?_, ?_, ?_⟩
  · intro q hq
    simp only [Set.mem_Iio] at hq ⊢
    omega
  · intro p hp q hq h
    simp only [Set.mem_Iio] at hp hq h
    omega
  · intro q hq
    simp only [Set.mem_Iio] at hq
    refine ⟨n - 1 - q, Set.mem_Iio.mpr (by omega), ?_⟩
    simp only
    omega

/-- The qubits of a register counted from its other end. -/
def Engine.Renaming.mirror (n : ℕ) : Engine.Renaming n where
  wire q := n - 1 - q
  index x := reverseBits x n
  bijOn := bijOn_mirror n
  index_lt x _ := reverseBits_lt x n
  testBit_index x _ q hq := by
    rw [testBit_reverseBits, show n - 1 - (n - 1 - q) = q by omega]
    simp [show n - 1 - q < n by omega]

/-! ## Rearranged entries -/

namespace Engine

/-- Moving each entry to the renamed index leaves the renamed buffer. -/
theorem Renamed.scatter_eq {α : Type} [Scalar α] {n : ℕ} {r : Renaming n}
    {buffer renamed : Array (Cplx α)} (h : Renamed r 0 buffer renamed) :
    scatter r.index buffer.toList = renamed.toList := by
  have hlength : buffer.toList.length = 2 ^ n := by rw [Array.length_toList, h.size]
  have hn : ((List.range buffer.toList.length).map r.index).Nodup := by
    apply List.nodup_range.map_on
    intro x hx y hy hxy
    rw [List.mem_range, hlength] at hx hy
    exact r.index_injOn hx hy hxy
  apply List.ext_getElem
  · rw [length_scatter, hlength, Array.length_toList, h.size_renamed]
  · intro y hy hy'
    rw [length_scatter, hlength] at hy
    obtain ⟨x, hx, rfl⟩ := r.exists_index hy
    have hentry := h.entry x hx
    have hmoved := getElem?_scatter hn (hlength ▸ hx) (by rwa [hlength])
    have hx' : x < buffer.size := by rwa [h.size]
    have hy'' : r.index x < renamed.size := by rwa [h.size_renamed]
    simp only [Array.getD_eq_getD_getElem?, Array.getElem?_eq_getElem hx',
      Array.getElem?_eq_getElem hy'', Option.getD_some] at hentry
    apply Option.some.inj
    rw [← List.getElem?_eq_getElem, hmoved, Array.getElem?_toList, Array.getElem?_eq_getElem hx',
      ← hentry]
    rfl

/-- A factor of all amplitudes commutes with a renaming. -/
theorem StateVector.Renamed.turn {α : Type} [Scalar α] {n : ℕ} {r : Renaming n}
    {s s' : Engine.StateVector α} (h : s.Renamed r s') (halfTurns : α) :
    ∃ t t', Execution.turn halfTurns (.vector s) = .vector t ∧
      Execution.turn halfTurns (.vector s') = .vector t' ∧ t.Renamed r t' := by
  cases hz : Scalar.isZero halfTurns with
  | true => exact ⟨s, s', by simp [Execution.turn, hz], by simp [Execution.turn, hz], h⟩
  | false =>
    exact ⟨_, _, by simp [Execution.turn, hz], by simp [Execution.turn, hz],
      h.multiply (Cplx.cis (Scalar.halfTurn halfTurns))⟩

end Engine

/-- A turn by a number that is not zero multiplies the amplitudes by the factor of modulus one. -/
theorem Execution.toList_of_turn {α : Type} [Scalar α] {halfTurns : α}
    {w final : Engine.StateVector α} (h : turn halfTurns (.vector w) = .vector final) :
    final.amplitudes.toList =
      if Scalar.isZero halfTurns then w.amplitudes.toList
      else w.amplitudes.toList.map (· * Cplx.cis (Scalar.halfTurn halfTurns)) := by
  unfold turn at h
  cases hz : Scalar.isZero halfTurns with
  | true =>
    rw [hz] at h
    rw [if_pos rfl, Engine.State.vector.inj h]
  | false =>
    rw [hz] at h
    rw [if_neg Bool.false_ne_true, ← Engine.State.vector.inj h, Engine.StateVector.multiply_eq,
      Array.toList_map]

/-! ## Runs on either numbering -/

namespace Circuit

variable {α : Type} [Scalar α] [DecimalText α] {c : Circuit α}

/-- A circuit that has a program on the mirrored numbering has one on the plain numbering. Both run
to their ends, with the same entries up to the order of the bits. -/
theorem WellFormed.run_plain (h : c.WellFormed) {p : Engine.Program α}
    (hp : c.lower ⟨true⟩ = .ok p) {o : Engine.Options} {s : Engine.StateVector α}
    (hs : Engine.StateVector.zero c.numQubits o = .ok s) :
    ∃ q v w, c.lower ⟨false⟩ = .ok q ∧ p.run (.vector s) = (.vector v, none) ∧
      q.run (.vector s) = (.vector w, none) ∧ v.Renamed (.mirror c.numQubits) w := by
  obtain ⟨images, -, hfits, hprogram⟩ := lower_eq_ok.mp hp
  have hn : p.numQubits = c.numQubits := by rw [hprogram]
  have hgates : ∀ g ∈ p.gates, g.Fits c.numQubits := by
    rw [hprogram]
    exact hfits
  obtain ⟨v, w, hv, hw, hvw⟩ := Engine.Program.run_rename (.mirror c.numQubits) hn hgates hs
  refine ⟨_, v, w, ?_, hv, hw, hvw⟩
  rw [h.lower_plain (r := .mirror c.numQubits) fun _ => rfl, hp]
  rfl

variable [BEq α]

/-- The state request for a prepared circuit comes to the amplitudes of the plain program, in
decreasing order and with the factor of the phase. -/
theorem WellFormed.process_dlo {p : Prepared α} (h : p.source.WellFormed) {b : Backend α}
    (hb : b.Sound) (hr : b.settings.representation = .stateVector) {o : Occasion}
    (hp : (b.prepare o.ticket c).2 = .ok p) {s : Engine.StateVector α}
    (hs : Engine.StateVector.zero p.source.numQubits b.settings.engineOptions = .ok s) :
    ∃ q w r, p.source.lower ⟨false⟩ = .ok q ∧ q.run (.vector s) = (.vector w, none) ∧
      (b.process o c .state).2 = .ok r ∧
      r.stateVector? .dlo = some
        (if Scalar.isZero p.source.phase then w.amplitudes.toList
        else w.amplitudes.toList.map (· * Cplx.cis (Scalar.halfTurn p.source.phase))) := by
  obtain ⟨k, hk, hprocess⟩ := hb.process_of_state hp
  obtain ⟨q, v, w, hq, hv, hw, hvw⟩ := h.run_plain (compile_eq_ok.mp hk).1 hs
  obtain ⟨final', final, hfinal', hfinal, hentries⟩ := hvw.turn p.source.phase
  have hstart : Execution.allocate b.settings k.program.numQubits = .ok (.vector s) := by
    rw [numQubits_of_compile hk]
    exact (Execution.allocate_vector hr).mpr ⟨s, hs, rfl⟩
  have hstate : Execution.finalState b.settings k p.source.phase = .ok (.vector final') :=
    Execution.finalState_eq_ok.mpr ⟨_, _, hstart, hv, hfinal'⟩
  refine ⟨q, w, _, hq, hw, hprocess .state _ _ _ rfl hstate rfl, ?_⟩
  rw [← Execution.toList_of_turn hfinal]
  exact congrArg some hentries.amplitudes.scatter_eq

/-- The mirrored and the plain numbering both give a circuit a program, or fail with one error. The
amplitude of an index after the mirrored program is that of the reversed index after the plain one.
A backend that has prepared the circuit answers, in decreasing order, with the amplitudes after the
plain program, each of them multiplied by `exp (i π phase)` unless the phase is zero; the circuit
that counts is the source of the preparation, which may be a kept one that compares as equal. -/
theorem mirroring_permutes_bits (hc : c.Built) :
    (∀ e, c.lower ⟨true⟩ = .error e ↔ c.lower ⟨false⟩ = .error e) ∧
    (∀ p q, c.lower ⟨true⟩ = .ok p → c.lower ⟨false⟩ = .ok q →
      ∀ (o : Engine.Options) s, Engine.StateVector.zero c.numQubits o = .ok s →
      ∃ v w, p.run (.vector s) = (.vector v, none) ∧ q.run (.vector s) = (.vector w, none) ∧
        ∀ i < 2 ^ c.numQubits, v.amplitude i = w.amplitude (reverseBits i c.numQubits)) ∧
    ∀ b : Backend α, b.Reachable → b.settings.representation = .stateVector →
      ∀ (o : Occasion) p s, (b.prepare o.ticket c).2 = .ok p →
      Engine.StateVector.zero c.numQubits b.settings.engineOptions = .ok s →
      (p.source = c ∨ (p.source == c) = true) ∧ (b.Faithful c → p.source = c) ∧
      ∃ q w r, p.source.lower ⟨false⟩ = .ok q ∧ q.run (.vector s) = (.vector w, none) ∧
        (b.process o c .state).2 = .ok r ∧
        r.stateVector? .dlo = some
          (if Scalar.isZero p.source.phase then w.amplitudes.toList
          else w.amplitudes.toList.map (· * Cplx.cis (Scalar.halfTurn p.source.phase))) := by
  have hw := hc.wellFormed
  refine ⟨?_, ?_, ?_⟩
  · intro e
    rw [hw.lower_plain (r := .mirror c.numQubits) fun _ => rfl, map_eq_error]
  · intro p q hp hq o s hs
    obtain ⟨q', v, w, hq', hv, hw, hvw⟩ := hw.run_plain hp hs
    obtain rfl : q' = q := Except.ok.inj (hq'.symm.trans hq)
    refine ⟨v, w, hv, hw, ?_⟩
    intro i hi
    exact (hvw.amplitude hi).symm
  · intro b hb hr o p s hp hs
    have hsource := Backend.source_prepare hp
    obtain ⟨hwp, hn⟩ : p.source.WellFormed ∧ p.source.numQubits = c.numQubits := by
      rcases hsource with heq | heq
      · rw [heq]
        exact ⟨hw, rfl⟩
      · exact WellFormed.of_beq heq hw
    exact ⟨hsource, fun hf => hb.sound.source_eq hf hp,
      hwp.process_dlo hb.sound hr hp (hn.symm ▸ hs)⟩

omit [BEq α] in
/-- A pair of qubits, the first one turned by a quarter, with a phase. -/
theorem mirroring_permutes_bits_pair :
    let o : Occasion := ⟨0, 0, 0, ⟨"job"⟩, ⟨2024, 1, 1, 0, 0, 0, 0⟩⟩
    ∃ (c : Circuit Float) (p q : Engine.Program Float) (s v w : Engine.StateVector Float)
      (r : ExecutionResult Float),
      ((Circuit.withSize "pair" 2 1).addPhase 0.25).appendAll
        [.ofGate ⟨.standard .rx, [.constant 0.5]⟩ [⟨0⟩], .ofGate (.fixed .cx) [⟨0⟩, ⟨1⟩],
          .measure ⟨1⟩ ⟨0⟩] = .ok c ∧
      c.lower ⟨true⟩ = .ok p ∧ c.lower ⟨false⟩ = .ok q ∧
      Engine.StateVector.zero 2 {} = .ok s ∧
      p.run (.vector s) = (.vector v, none) ∧ q.run (.vector s) = (.vector w, none) ∧
      (∀ i < 4, v.amplitude i = w.amplitude (reverseBits i 2)) ∧
      (Backend.new.process o c .state).2 = .ok r ∧
      r.stateVector? .dlo = some
        (if Scalar.isZero c.phase then w.amplitudes.toList
        else w.amplitudes.toList.map (· * Cplx.cis (Scalar.halfTurn c.phase))) := by
  intro o
  have happend : ((Circuit.withSize "pair" 2 1 : Circuit Float).addPhase 0.25).appendAll
      [.ofGate ⟨.standard .rx, [.constant 0.5]⟩ [⟨0⟩], .ofGate (.fixed .cx) [⟨0⟩, ⟨1⟩],
        .measure ⟨1⟩ ⟨0⟩] = .ok _ := rfl
  have hbuilt := ((Circuit.Built.withSize "pair" 2 1).addPhase 0.25).appendAll happend
  obtain ⟨-, hruns, hanswers⟩ := mirroring_permutes_bits hbuilt
  have hzero : Engine.StateVector.zero (α := Float) 2 {} = .ok _ := rfl
  obtain ⟨v, w, hv, hw, hvw⟩ := hruns _ _ rfl rfl {} _ hzero
  obtain ⟨-, -, q, w', r, hq, hw', hprocess, hdlo⟩ :=
    hanswers .new (.build _ _) rfl o _ _ rfl hzero
  obtain rfl := Except.ok.inj hq
  obtain rfl : w = w' := Engine.State.vector.inj (Prod.mk.inj (hw.symm.trans hw')).1
  exact ⟨_, _, _, _, v, w, r, happend, rfl, rfl, hzero, hv, hw, hvw, hprocess, hdlo⟩

end Circuit

end KetSim

import Mathlib
import KetSim.Proofs.Backend.Runs
import KetSim.Proofs.Backend.Sampling
import KetSim.Proofs.Backend.Submission
import KetSim.Proofs.Circuit.Reversible
import KetSim.Proofs.Engine.Picks

/-! # Certain outcomes

A reversible circuit ends in one basis state, up to its phase. No draw matters then:
every shot shows the row of bits that a run of the circuit on bits ends with.
-/
namespace KetSim

variable [DecimalText ℝ] {c : Circuit ℝ}

/-- With either representation all the probability lies on the index that spells the bits of the
qubits. -/
theorem Execution.finalState_of_reversible {s : Settings} (h : c.WellFormed) (hr : c.Reversible)
    {k : Compiled ℝ} (hk : c.compile = .ok k) {start : Engine.State ℝ}
    (ha : allocate s c.numQubits = .ok start) :
    ∃ state y, finalState s k c.phase = .ok state ∧ y.testBit ∘ c.place = c.evaluate ∧
      y < state.probabilities.length ∧
      ∀ x < state.probabilities.length, state.probabilities.getD x 0 = if x = y then 1 else 0 := by
  obtain ⟨state, ψ, hstate, hψ, hlength, hprobability⟩ := finalState_probabilities h hk ha
  obtain ⟨φ, hφ, rfl⟩ := Option.map_eq_some_iff.mp hψ
  obtain ⟨y, hy, hbits⟩ := h.exists_testBit_place (v := c.evaluate) fun q hq => h.evaluate_of_le hq
  refine ⟨state, y, hstate, hbits, hlength ▸ hy, ?_⟩
  intro x hx
  have hiff : x.testBit ∘ c.place = c.evaluate ↔ x = y := by
    rw [← hbits]
    exact ⟨h.eq_of_testBit_place, fun hxy => hxy ▸ rfl⟩
  classical
  rw [hprobability x (hlength ▸ hx), Complex.normSq_mul, OneQubit.normSq_phase, one_mul,
    h.evolve?_eq_basis hr hφ, Ket.normSq_basis]
  exact if_congr hiff rfl rfl

/-- The row of an index that spells the bits of the qubits. -/
theorem Circuit.WellFormed.row_eq (h : c.WellFormed) {k : Compiled ℝ} (hk : c.compile = .ok k)
    {y : ℕ} {v : QubitId → Bool} (hy : y.testBit ∘ c.place = v) :
    k.readout.row y =
      (List.range c.numClbits).map fun b => (c.lastInto? ⟨b⟩).elim 0 fun q => (v q).toNat := by
  obtain ⟨-, hreadout⟩ := (Readout.ofCircuit_eq_ok h).mp (compile_eq_ok.mp hk).2.2
  rw [hreadout, Readout.row_scan, hy, Reading.row, c.sources_eq, List.map_map]
  rfl

namespace Backend

/-- Every backend that has prepared a circuit of not gates and exchanges, with or without controls,
and that has room for its state, samples nothing but the bits that the circuit computes: the one of
the qubit that was last measured into each classical bit, and zero where none was. -/
theorem samples_computed_bits {b : Backend ℝ} (hb : b.Reachable) (hc : c.Built)
    (hr : c.Reversible) {o : Occasion} {p : Prepared ℝ} (hp : (b.prepare o.ticket c).2 = .ok p)
    {start : Engine.State ℝ} (ha : Execution.allocate b.settings c.numQubits = .ok start)
    {count : ℕ} (hpos : 1 ≤ count) (hle : count ≤ 1000000) (own : Option UInt64) :
    ∃ r table, (b.process o c (.shots count own)).2 = .ok r ∧ r.shots? = some table ∧
      table.rows.length = count ∧ ∀ row ∈ table.rows, row.length = c.numClbits ∧
        ∀ k < c.numClbits,
          row[k]? = some ((c.lastInto? ⟨k⟩).elim 0 fun q => (c.evaluate q).toNat) := by
  have hw := hc.wellFormed
  obtain ⟨k, hk, hprocess⟩ := hb.sound.process_of_state hp
  rw [hb.sound.source_eq (b.faithful_of_lawful c) hp] at hk hprocess
  obtain ⟨state, y, hstate, hbits, hy, hcertain⟩ := Execution.finalState_of_reversible hw hr hk ha
  have hshots := checkShots_eq_ok hb.sound.maxShots hpos hle own
  refine ⟨_, _, hprocess _ state _ _ hshots hstate rfl, rfl, ?_⟩
  have hsample : state.sample count (Execution.seedOf b.settings o.entropy own) =
      List.replicate count y := Engine.sample_of_certain hy hcertain count _
  rw [Execution.shotTable, hsample, List.map_replicate, hw.row_eq hk hbits]
  refine ⟨List.length_replicate, ?_⟩
  intro row hrow
  rw [List.eq_of_mem_replicate hrow]
  exact ⟨by simp, fun j hj => by simp [hj]⟩

omit [DecimalText ℝ] in
/-- Two set bits are added: the sum is clear and the carry set. -/
theorem samples_computed_bits_adder :
    let _ : DecimalText ℝ := DecimalText.whole
    ∃ (c : Circuit ℝ) (p : Prepared ℝ) (start : Engine.State ℝ) (r : ExecutionResult ℝ)
      (table : ShotTable),
      (Circuit.withSize "adder" 3 2).appendAll
        [.ofGate (.fixed .x) [⟨0⟩], .ofGate (.fixed .x) [⟨1⟩],
          .ofGate (.fixed .ccx) [⟨0⟩, ⟨1⟩, ⟨2⟩], .ofGate (.fixed .cx) [⟨0⟩, ⟨1⟩],
          .measure ⟨1⟩ ⟨0⟩, .measure ⟨2⟩ ⟨1⟩] = .ok c ∧
      c.Built ∧ c.Reversible ∧ (new.prepare 0 c).2 = .ok p ∧
      Execution.allocate {} 3 = .ok start ∧
      (new.process ⟨0, 0, 0, ⟨"job"⟩, ⟨2024, 1, 1, 0, 0, 0, 0⟩⟩ c (.shots 10 (some 7))).2 = .ok r ∧
      r.shots? = some table ∧ table.rows.length = 10 ∧
      ∀ row ∈ table.rows, row.length = 2 ∧ row[0]? = some 0 ∧ row[1]? = some 1 := by
  let _ : DecimalText ℝ := DecimalText.whole
  have happend : (Circuit.withSize "adder" 3 2 : Circuit ℝ).appendAll
      [.ofGate (.fixed .x) [⟨0⟩], .ofGate (.fixed .x) [⟨1⟩],
        .ofGate (.fixed .ccx) [⟨0⟩, ⟨1⟩, ⟨2⟩], .ofGate (.fixed .cx) [⟨0⟩, ⟨1⟩],
        .measure ⟨1⟩ ⟨0⟩, .measure ⟨2⟩ ⟨1⟩] = .ok _ := rfl
  have hbuilt := (Circuit.Built.withSize "adder" 3 2).appendAll happend
  have hreversible : Circuit.Reversible (α := ℝ) { Circuit.withSize "adder" 3 2 with
      instructions := [.ofGate (.fixed .x) [⟨0⟩], .ofGate (.fixed .x) [⟨1⟩],
        .ofGate (.fixed .ccx) [⟨0⟩, ⟨1⟩, ⟨2⟩], .ofGate (.fixed .cx) [⟨0⟩, ⟨1⟩],
        .measure ⟨1⟩ ⟨0⟩, .measure ⟨2⟩ ⟨1⟩] } := by
    intro g hg
    have hgates : g ∈ [Gate.fixed .x, .fixed .x, .fixed .ccx, .fixed .cx] := hg
    simp only [List.mem_cons, List.not_mem_nil, or_false] at hgates
    rcases hgates with rfl | rfl | rfl | rfl <;> exact ⟨_, by decide, rfl⟩
  obtain ⟨r, table, hprocess, htable, hlength, hrows⟩ :=
    samples_computed_bits (b := new) (.build _ _) hbuilt hreversible
      (o := ⟨0, 0, 0, ⟨"job"⟩, ⟨2024, 1, 1, 0, 0, 0, 0⟩⟩) rfl rfl (show 1 ≤ 10 by decide)
      (by decide) (some 7)
  refine ⟨_, _, _, r, table, happend, hbuilt, hreversible, rfl, rfl, hprocess, htable, hlength,
    fun row hrow => ?_⟩
  obtain ⟨hwidth, hentry⟩ := hrows row hrow
  exact ⟨hwidth, hentry 0 (show 0 < 2 by decide), hentry 1 (show 1 < 2 by decide)⟩

end Backend

end KetSim

import KetSim.Proofs.Backend.Certain
import KetSim.Proofs.Backend.States
import KetSim.Proofs.Circuit.Entangled
import KetSim.Proofs.Engine.InverseSampling

/-! # Runs of entangled chains

A chain of any length that a backend has room for is prepared and run. Its state has the
index without bits and the one with all bits, each with half of the probability, so no
draw leads to a row of different bits.
-/
namespace KetSim

open Circuit (below)

/-! ## Indices of clear and of set bits -/

theorem Ket.balanced_apply {ι : Type} {u v : ι → Bool} (huv : u ≠ v) (a : ℂ) (x : ι → Bool)
    [Decidable (x = u)] [Decidable (x = v)] :
    balanced a u v x = if x = u ∨ x = v then a else 0 := by
  classical
  by_cases hu : x = u
  · have hv : x ≠ v := fun hv => huv (hu.symm.trans hv)
    simp [balanced, basis, hu, huv]
  · simp [balanced, basis, hu]

namespace Circuit.WellFormed

variable {α : Type} {c : Circuit α} (h : c.WellFormed)

include h

theorem testBit_place_eq_below_zero {x : ℕ} : x.testBit ∘ c.place = below 0 ↔ x = 0 := by
  have hzero : (0 : ℕ).testBit ∘ c.place = below 0 := by
    rw [below_zero]
    funext q
    exact Nat.zero_testBit _
  rw [← hzero]
  exact ⟨h.eq_of_testBit_place, fun hx => hx ▸ rfl⟩

theorem testBit_place_eq_below {x : ℕ} :
    x.testBit ∘ c.place = below c.numQubits ↔ x = 2 ^ c.numQubits - 1 := by
  have hones : (2 ^ c.numQubits - 1).testBit ∘ c.place = below c.numQubits := by
    funext q
    rw [Function.comp_apply, Nat.testBit_two_pow_sub_one, below, decide_eq_decide]
    by_cases hq : q.index < c.numQubits
    · exact iff_of_true (h.place_lt hq) hq
    · rw [place, if_neg hq]
  rw [← hones]
  exact ⟨h.eq_of_testBit_place, fun hx => hx ▸ rfl⟩

theorem balanced_testBit_place (hn : c.numQubits ≠ 0) (a : ℂ) (x : ℕ) :
    Ket.balanced a (below 0) (below c.numQubits) (x.testBit ∘ c.place) =
      if x = 0 ∨ x = 2 ^ c.numQubits - 1 then a else 0 := by
  classical
  have hne : below 0 ≠ below c.numQubits := fun heq => by
    simpa [below, hn] using congrFun heq ⟨0⟩
  rw [Ket.balanced_apply hne]
  exact if_congr (or_congr h.testBit_place_eq_below_zero h.testBit_place_eq_below) rfl rfl

end Circuit.WellFormed

/-! ## Rows -/

namespace Circuit

variable [DecimalText ℝ] {n : ℕ} {c : Circuit ℝ}

/-- An index with the bits of the first `m` qubits is read as the row that starts with `m` ones. -/
theorem row_ghz (hc : ghz n = .ok c) {k : Compiled ℝ} (hk : c.compile = .ok k) {y m : ℕ}
    (hy : y.testBit ∘ c.place = below m) :
    k.readout.row y = (List.range n).map fun j => (decide (j < m)).toNat := by
  rw [(Built.ghz hc).wellFormed.row_eq hk hy, numClbits_ghz hc]
  apply List.map_congr_left
  intro j hj
  rw [lastInto?_ghz hc (List.mem_range.mp hj)]
  rfl

theorem row_clear (hc : ghz n = .ok c) {k : Compiled ℝ} (hk : c.compile = .ok k) :
    k.readout.row 0 = List.replicate n 0 := by
  rw [row_ghz hc hk ((Built.ghz hc).wellFormed.testBit_place_eq_below_zero.mpr rfl)]
  simp

theorem row_set (hc : ghz n = .ok c) {k : Compiled ℝ} (hk : c.compile = .ok k) :
    k.readout.row (2 ^ n - 1) = List.replicate n 1 := by
  have hplace := (Built.ghz hc).wellFormed.testBit_place_eq_below (x := 2 ^ n - 1)
  rw [numQubits_ghz hc] at hplace
  rw [row_ghz hc hk (hplace.mpr rfl)]
  simp +contextual [List.eq_replicate_iff]

end Circuit

/-! ## Runs -/

namespace Backend

variable [DecimalText ℝ] {n : ℕ} {c : Circuit ℝ}

/-- A chain that a backend has room for is prepared as itself. -/
theorem Sound.exists_prepare_ghz {b : Backend ℝ} (hb : b.Sound) (hpos : n ≠ 0)
    (hn : n ≤ b.settings.maxQubits) (hc : Circuit.ghz n = .ok c) (ticket : ℕ) :
    ∃ p, (b.prepare ticket c).2 = .ok p ∧ p.source = c := by
  have hw := (Circuit.Built.ghz hc).wellFormed
  obtain ⟨k, hk⟩ := hw.exists_compile (Circuit.executable_ghz hpos hc)
  have hsize := checkSize_eq_ok.mpr ((Circuit.numQubits_ghz hc).trans_le hn)
  have hcompiled := compiled_eq_ok.mpr ⟨hsize, hk⟩
  obtain ⟨e, -, he⟩ | ⟨p, -, hp, -, -, hsource, -⟩ :=
    hb.prepare_snd (b.faithful_of_lawful c) ticket
  · cases hcompiled.symm.trans he
  · exact ⟨p, hp, hsource⟩

/-- A chain ends in the same amplitude for the index without bits and for the one with all bits. -/
theorem finalState_ghz {s : Settings} (hr : s.representation = .stateVector) (hpos : n ≠ 0)
    (hc : Circuit.ghz n = .ok c) {k : Compiled ℝ} (hk : c.compile = .ok k)
    {start : Engine.StateVector ℝ} (ha : Engine.StateVector.zero n s.engineOptions = .ok start) :
    ∃ v : Engine.StateVector ℝ, Execution.finalState s k c.phase = .ok (.vector v) ∧
      v.amplitudes.size = 2 ^ n ∧
      ∀ x < 2 ^ n, v.amplitudes.getD x 0 = if x = 0 ∨ x = 2 ^ n - 1 then ⟨1 / √2, 0⟩ else 0 := by
  have hw := (Circuit.Built.ghz hc).wellFormed
  obtain rfl := Circuit.numQubits_ghz hc
  obtain ⟨v, ψ, hstate, -, hψ, hv⟩ := Execution.finalState_vector hr hw hk ha
  refine ⟨v, hstate, hv.size, fun x hx => Cplx.toComplex_injective ?_⟩
  rw [hv.entry x hx, Circuit.ket?_ghz hpos hc hψ, Ket.relabel, hw.balanced_testBit_place hpos,
    apply_ite Cplx.toComplex]
  refine if_congr Iff.rfl ?_ rfl
  rw [← Complex.ofReal_one, ← Complex.ofReal_div]
  rfl

theorem probabilities_ghz {s : Settings} (hpos : n ≠ 0) (hc : Circuit.ghz n = .ok c)
    {k : Compiled ℝ} (hk : c.compile = .ok k) {start : Engine.State ℝ}
    (ha : Execution.allocate s n = .ok start) :
    ∃ state, Execution.finalState s k c.phase = .ok state ∧
      state.probabilities.length = 2 ^ n ∧ ∀ x < 2 ^ n,
        state.probabilities.getD x 0 = if x = 0 ∨ x = 2 ^ n - 1 then 1 / 2 else 0 := by
  have hw := (Circuit.Built.ghz hc).wellFormed
  obtain rfl := Circuit.numQubits_ghz hc
  obtain ⟨state, ψ, hstate, hψ, hlength, hprobability⟩ :=
    Execution.finalState_probabilities hw hk ha
  refine ⟨state, hstate, hlength, fun x hx => ?_⟩
  rw [hprobability x hx, Circuit.ket?_ghz hpos hc hψ, hw.balanced_testBit_place hpos,
    apply_ite Complex.normSq]
  simp

/-- Whatever is drawn, a chain is read as zeros only or as ones only. -/
theorem rows_ghz (hc : Circuit.ghz n = .ok c) {k : Compiled ℝ}
    (hk : c.compile = .ok k) {state : Engine.State ℝ} (hlength : state.probabilities.length = 2 ^ n)
    (hprobability : ∀ x < 2 ^ n, state.probabilities.getD x 0 =
      if x = 0 ∨ x = 2 ^ n - 1 then 1 / 2 else 0) (count : ℕ) (seed : UInt64) :
    (Execution.shotTable k count seed state).rows.length = count ∧
      ∀ row ∈ (Execution.shotTable k count seed state).rows,
        row = List.replicate n 0 ∨ row = List.replicate n 1 := by
  have hzero : 0 < state.probabilities.getD 0 0 := by
    rw [hprobability 0 (Nat.two_pow_pos n), if_pos (.inl rfl)]
    norm_num
  have htotal := Engine.cumulative_pos (hlength ▸ Nat.two_pow_pos n) hzero
  refine ⟨(List.length_map _).trans (Engine.length_sample htotal count seed), fun row hrow => ?_⟩
  obtain ⟨x, hx, rfl⟩ := List.mem_map.mp hrow
  have hlikely := Engine.pos_of_mem_sample htotal hx
  have hlt : x < 2 ^ n := by
    by_contra hge
    rw [List.getD_eq_default _ _ (by omega)] at hlikely
    exact lt_irrefl 0 hlikely
  rw [hprobability x hlt] at hlikely
  split_ifs at hlikely with hends
  · rcases hends with rfl | rfl
    · exact .inl (Circuit.row_clear hc hk)
    · exact .inr (Circuit.row_set hc hk)
  · exact absurd hlikely (lt_irrefl 0)

/-- A chain of at least one qubit is prepared by every backend that has room for it. In all later
states of the backend, the answer to a request for a state vector has the amplitude `1 / √2` at the
first and at the last index and zero at all others, and each row of shots has zeros only or ones
only. The backend may keep its states in either precision: the real numbers are rounded by the
identity, so in exact arithmetic the two precisions are the same. -/
theorem ghz_prepared_and_run {b : Backend ℝ} (hb : b.Reachable) (hpos : 1 ≤ n)
    (hn : n ≤ b.settings.maxQubits) {start : Engine.State ℝ}
    (ha : Execution.allocate b.settings n = .ok start) (ticket : ℕ) :
    ∃ c p, Circuit.ghz n = .ok c ∧ (b.prepare ticket c).2 = .ok p ∧
      ∀ b', b.Keeps b' → ∀ o,
        (b.settings.representation = .stateVector →
          ∃ r xs, b'.run o p .state = .ok r ∧ r.stateVector? .ilo = some xs ∧
            xs.length = 2 ^ n ∧
            ∀ x < 2 ^ n, xs.getD x 0 = if x = 0 ∨ x = 2 ^ n - 1 then ⟨1 / √2, 0⟩ else 0) ∧
        ∀ count own, 1 ≤ count → count ≤ 1000000 →
          ∃ r table, b'.run o p (.shots count own) = .ok r ∧ r.shots? = some table ∧
            table.rows.length = count ∧
            ∀ row ∈ table.rows, row = List.replicate n 0 ∨ row = List.replicate n 1 := by
  have hne : n ≠ 0 := Nat.one_le_iff_ne_zero.mp hpos
  obtain ⟨c, hc, -⟩ := Circuit.ghz_eq_ok (α := ℝ) n
  obtain ⟨p, hp, hsource⟩ := hb.sound.exists_prepare_ghz hne hn hc ticket
  refine ⟨c, p, hc, hp, fun b' hkeeps o => ?_⟩
  obtain ⟨k, hk, hrun⟩ := run_of_state (hkeeps.name.symm ▸ hb.sound.genuine_prepare hp)
  rw [hsource] at hk hrun
  rw [← hkeeps.settings] at ha ⊢
  refine ⟨fun hr => ?_, fun count own hmin hmax => ?_⟩
  · obtain ⟨v, hv, -⟩ := (Execution.allocate_vector hr).mp ha
    obtain ⟨v', hstate, hsize, hentries⟩ := finalState_ghz hr hne hc hk hv
    refine ⟨_, v'.amplitudes.toList, hrun o .state _ _ _ rfl hstate rfl, ?_, ?_, fun x hx => ?_⟩
    · exact congrArg some (scatter_ilo _ _)
    · rw [Array.length_toList, hsize]
    · rw [Engine.getD_toList, hentries x hx]
  · obtain ⟨state, hstate, hlength, hprobability⟩ := probabilities_ghz hne hc hk ha
    have hshots : b'.checkShots (.shots count own : RunMode ℝ) = .ok () :=
      checkShots_eq_ok (hkeeps.capabilities ▸ hb.sound.maxShots) hmin hmax own
    exact ⟨_, _, hrun o _ _ _ _ hshots hstate rfl, rfl,
      rows_ghz hc hk hlength hprobability count _⟩

omit [DecimalText ℝ] in
/-- Three qubits on a backend that has served nothing before. -/
theorem ghz_prepared_and_run_three :
    let _ : DecimalText ℝ := DecimalText.whole
    let o : Occasion := ⟨0, 0, 0, ⟨"job"⟩, ⟨2024, 1, 1, 0, 0, 0, 0⟩⟩
    ∃ (c : Circuit ℝ) (p : Prepared ℝ) (r s : ExecutionResult ℝ) (xs : List (Cplx ℝ))
      (table : ShotTable),
      Circuit.ghz 3 = .ok c ∧ (new.prepare 0 c).2 = .ok p ∧ new.run o p .state = .ok r ∧
      r.stateVector? .ilo = some xs ∧ xs.length = 8 ∧
      (∀ x < 8, xs.getD x 0 = if x = 0 ∨ x = 7 then ⟨1 / √2, 0⟩ else 0) ∧
      new.run o p (.shots 10 (some 7)) = .ok s ∧ s.shots? = some table ∧ table.rows.length = 10 ∧
      ∀ row ∈ table.rows, row = [0, 0, 0] ∨ row = [1, 1, 1] := by
  intro _ o
  have hb : (new : Backend ℝ).Reachable := .build _ _
  obtain ⟨c, p, hc, hp, hruns⟩ := ghz_prepared_and_run hb (show 1 ≤ 3 by decide)
    (show 3 ≤ 24 by decide) rfl 0
  obtain ⟨hstate, hshots⟩ := hruns new ⟨rfl, rfl, rfl⟩ o
  obtain ⟨r, xs, hr, hxs, hlength, hentries⟩ := hstate rfl
  obtain ⟨s, table, hs, htable, hcount, hrows⟩ :=
    hshots 10 (some 7) (by decide) (by decide)
  exact ⟨c, p, r, s, xs, table, hc, hp, hr, hxs, hlength, hentries, hs, htable, hcount, hrows⟩

end Backend

end KetSim

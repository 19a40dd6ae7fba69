import KetSim.Proofs.Backend.Delivery
import KetSim.Proofs.Backend.History

/-! # Jobs and requests run at once

A submission does what the same request does when it is run at once, and keeps the
outcome under the id of a job. The two paths refuse the same requests, come to the
same outcome on all others, and leave the same cache.
-/
namespace KetSim

variable {α : Type}

/-! ## One job -/

namespace Backend

variable [Scalar α] [DecimalText α] [BEq α]

/-! ## Admission -/

variable {b : Backend α}

theorem process_of_prepare {o : Occasion} {c : Circuit α} {p : Prepared α}
    (hp : (b.prepare o.ticket c).2 = .ok p) (mode : RunMode α) :
    (b.process o c mode).2 = (b.prepare o.ticket c).1.run o p mode := by
  unfold process
  rcases hb : b.prepare o.ticket c with ⟨b', r⟩
  rw [hb] at hp
  obtain rfl : r = .ok p := hp
  rfl

omit [BEq α] in
/-- The run of a genuine preparation comes to what the mode asks of the final state of the
source. -/
theorem run_of_state {p : Prepared α} (hp : p.Genuine b.name) :
    ∃ k, p.source.compile = .ok k ∧ ∀ o mode state data seed, b.checkShots mode = .ok () →
      Execution.finalState b.settings k p.source.phase = .ok state →
      Execution.observe b.settings o.entropy k mode state = .ok (data, seed) →
      b.run o p mode =
        .ok ⟨data, ⟨b.name, p.source.numQubits, some o.milliseconds, seed⟩⟩ := by
  obtain ⟨k, hk, hrun⟩ := run_of_genuine hp
  refine ⟨k, hk, fun o mode state data seed hshots hstate hdata => ?_⟩
  rw [hrun, Circuit.numQubits_of_compile hk]
  simp only [hshots, Execution.execute, hstate, hdata, bind, Except.bind, Except.map]

/-- A request for a prepared circuit comes to what the mode asks of the final state of the
source. -/
theorem Sound.process_of_state (h : b.Sound) {o : Occasion} {c : Circuit α} {p : Prepared α}
    (hp : (b.prepare o.ticket c).2 = .ok p) :
    ∃ k, p.source.compile = .ok k ∧ ∀ mode state data seed, b.checkShots mode = .ok () →
      Execution.finalState b.settings k p.source.phase = .ok state →
      Execution.observe b.settings o.entropy k mode state = .ok (data, seed) →
      (b.process o c mode).2 =
        .ok ⟨data, ⟨b.name, p.source.numQubits, some o.milliseconds, seed⟩⟩ := by
  have hkeeps := (h.prepare_fst o.ticket c).1
  obtain ⟨k, hk, hrun⟩ := run_of_state (hkeeps.name.symm ▸ h.genuine_prepare hp)
  refine ⟨k, hk, fun mode state data seed hshots hstate hdata => ?_⟩
  have hshots' : (b.prepare o.ticket c).1.checkShots mode = .ok () := by
    simpa only [checkShots, hkeeps.capabilities] using hshots
  rw [process_of_prepare hp, ← hkeeps.name]
  rw [← hkeeps.settings] at hstate hdata
  exact hrun o mode state data seed hshots' hstate hdata

end Backend

end KetSim

import KetSim.Proofs.Backend.Devices
import KetSim.Proofs.MachineFloat

/-! # Histories of requests

A backend answers as a fresh one, whatever it has served before. A kept preparation
is handed out for an equal circuit only, and on circuits without a NaN and without
a negative zero equality is identity.
-/
namespace KetSim

/-! ## Requests -/

/-- What a client asks of a backend. -/
inductive Request (α : Type) where
  | prepare (ticket : ℕ) (c : Circuit α)
  | process (o : Occasion) (c : Circuit α) (mode : RunMode α)
  | run (o : Occasion) (p : Prepared α) (mode : RunMode α)
  | submit (o : Occasion) (c : Circuit α) (mode : RunMode α)
  | status (id : JobId)
  | result (id : JobId)
  | clearCache

variable {α : Type}

/-- The circuit that a request brings. -/
def Request.circuit? : Request α → Option (Circuit α)
  | prepare _ c | process _ c _ | submit _ c _ => some c
  | run _ _ _ | status _ | result _ | clearCache => none

/-- The seed of a run is its own or the one of the settings. -/
def RunMode.Seeded (s : Settings) : RunMode α → Prop
  | .shots _ own => (own <|> s.seed).isSome = true
  | .state | .expectation _ => True

/-- A result without the time that the run took. -/
def ExecutionResult.untimed (r : ExecutionResult α) : ExecutionResult α :=
  { r with metadata := { r.metadata with milliseconds := none } }

theorem RunMode.Seeded.seedWith_eq {s : Settings} {mode : RunMode α} (h : mode.Seeded s)
    (entropy entropy' : UInt64) : mode.seedWith s entropy = mode.seedWith s entropy' := by
  cases mode with
  | shots count own =>
    obtain ⟨seed, hseed⟩ := Option.isSome_iff_exists.mp h
    simp only [seedWith, Execution.seedOf, hseed, Option.getD_some]
  | state => rfl
  | expectation op => rfl

namespace Backend

variable [Scalar α] [DecimalText α] [BEq α]

def serve (b : Backend α) : Request α → Backend α
  | .prepare ticket c => (b.prepare ticket c).1
  | .process o c mode => (b.process o c mode).1
  | .submit o c mode => (b.submit o c mode).1
  | .result id => (b.result id).1
  | .clearCache => b.clearCache
  | .run _ _ _ | .status _ => b

def after (b : Backend α) (history : List (Request α)) : Backend α := history.foldl serve b

/-! ## One request -/

theorem Sound.serve {b : Backend α} (h : b.Sound) (r : Request α) :
    Keeps b (b.serve r) ∧ (b.serve r).Sound := by
  cases r with
  | prepare ticket c => exact h.prepare_fst ticket c
  | process o c mode => exact h.process_fst o c mode
  | submit o c mode => exact h.submit_fst o c mode
  | run o p mode => exact ⟨⟨rfl, rfl, rfl⟩, h⟩
  | status id => exact ⟨⟨rfl, rfl, rfl⟩, h⟩
  | result id => exact ⟨⟨rfl, rfl, rfl⟩, h.capabilities, h.cache⟩
  | clearCache =>
    exact ⟨⟨rfl, rfl, rfl⟩, h.capabilities, fun e he => absurd he List.not_mem_nil⟩

/-! ## Histories -/

theorem Sound.after {b : Backend α} (h : b.Sound) (history : List (Request α)) :
    Keeps b (b.after history) ∧ (b.after history).Sound := by
  induction history generalizing b with
  | nil => exact ⟨⟨rfl, rfl, rfl⟩, h⟩
  | cons r rest ih =>
    obtain ⟨hkeeps, hsound⟩ := h.serve r
    obtain ⟨⟨hname, hsettings, hcapabilities⟩, hrest⟩ := ih hsound
    exact ⟨⟨hname.trans hkeeps.name, hsettings.trans hkeeps.settings,
      hcapabilities.trans hkeeps.capabilities⟩, hrest⟩

omit [BEq α] in
theorem Keeps.compiled_eq {b b' : Backend α} (h : Keeps b b') (c : Circuit α) :
    b'.compiled c = b.compiled c := by
  simp only [compiled, checkSize, h.name, h.settings]

omit [BEq α] in
theorem Keeps.answer_eq {b b' : Backend α} (h : Keeps b b') (entropy : UInt64) (c : Circuit α)
    (mode : RunMode α) : b'.answer entropy c mode = b.answer entropy c mode := by
  simp only [answer, h.compiled_eq, checkShots, h.settings, h.capabilities]

omit [BEq α] in
theorem answer_congr_seed (b : Backend α) {entropy entropy' : UInt64} {mode : RunMode α}
    (h : mode.seedWith b.settings entropy = mode.seedWith b.settings entropy') (c : Circuit α) :
    b.answer entropy c mode = b.answer entropy' c mode := by
  simp only [answer, execute_congr_seed h]

end Backend

end KetSim

import Mathlib
import KetSim.Proofs.Engine.CheckedState

/-! # Gates in place

A state that is changed in place shows what a failed operation leaves behind. A gate on
a density matrix is two passes over the entries and each of them can fail, yet a gate
that fails has changed nothing: the operands are checked before the first pass, and a
library that is there for the first pass is there for the second. A program that fails
has run as far as the first gate that is invalid on the register.
-/
namespace KetSim.Engine

variable {α : Type}

/-! ## Invalid gates -/

namespace Gate

/-- An operand lies outside the register or repeats. -/
def Invalid (g : Gate α) (n : ℕ) : Prop := (∃ q ∈ g.qubits, n ≤ q) ∨ ¬ g.qubits.Nodup

theorem invalid_iff {g : Gate α} {n : ℕ} : g.Invalid n ↔ ¬ g.Fits n := by
  have hfits : g.Fits n ↔ g.qubits.Nodup ∧ ∀ q ∈ g.qubits, q < n :=
    ⟨fun h => ⟨h.nodup, h.lt⟩, fun h => ⟨h.1, h.2⟩⟩
  rw [hfits, not_and_or, or_comm, Invalid]
  simp

/-- What is wrong with the first operand that lies outside the register or repeats one before it. -/
inductive Fault (g : Gate α) (n : ℕ) : EngineError → Prop
  | outOfRange {before after : List ℕ} {q : ℕ} (split : g.qubits = before ++ q :: after)
      (distinct : before.Nodup) (within : ∀ p ∈ before, p < n) (fault : n ≤ q) :
      Fault g n (.qubitOutOfRange q n)
  | repeated {before after : List ℕ} {q : ℕ} (split : g.qubits = before ++ q :: after)
      (distinct : before.Nodup) (within : ∀ p ∈ before, p < n) (fault : q ∈ before) :
      Fault g n (.duplicateQubit g.name q)

/-- Operands that pass are remembered, and the check goes on. -/
theorem checkDistinct_append {name : String} {n : ℕ} {before seen rest : List ℕ}
    (distinct : before.Nodup) (within : ∀ p ∈ before, p < n ∧ p ∉ seen) :
    checkDistinct name n seen (before ++ rest) =
      checkDistinct name n (before.reverse ++ seen) rest := by
  induction before generalizing seen with
  | nil => rfl
  | cons p others ih =>
    obtain ⟨hp, hdistinct⟩ := List.nodup_cons.mp distinct
    obtain ⟨⟨hlt, hseen⟩, hwithin⟩ := List.forall_mem_cons.mp within
    rw [List.cons_append, checkDistinct, if_neg (not_le.mpr hlt), if_neg hseen,
      ih hdistinct fun q hq => ⟨(hwithin q hq).1, ?_⟩]
    · simp
    · rintro (_ | ⟨_, hmem⟩)
      · exact hp hq
      · exact (hwithin q hq).2 hmem

theorem fault_of_checkDistinct {g : Gate α} {n : ℕ} {e : EngineError} {before rest : List ℕ}
    (split : g.qubits = before ++ rest) (distinct : before.Nodup) (within : ∀ p ∈ before, p < n)
    (h : checkDistinct g.name n before.reverse rest = .error e) : g.Fault n e := by
  induction rest generalizing before with
  | nil => cases h
  | cons q rest ih =>
    rw [checkDistinct] at h
    split_ifs at h with hout hseen
    · exact Except.error.inj h ▸ .outOfRange split distinct within hout
    · exact Except.error.inj h ▸ .repeated split distinct within (List.mem_reverse.mp hseen)
    · have hq : q ∉ before := fun hmem => hseen (List.mem_reverse.mpr hmem)
      have hnext : g.qubits = (before ++ [q]) ++ rest := by simp [split]
      refine ih hnext ?_ ?_ (by simpa using h)
      · rw [← List.concat_eq_append]
        exact distinct.concat hq
      · intro p hp
        rcases List.mem_append.mp hp with hp | hp
        · exact within p hp
        · exact List.mem_singleton.mp hp ▸ not_le.mp hout

/-- The check reports the first fault. -/
theorem check_eq_error_iff {g : Gate α} {n : ℕ} {e : EngineError} :
    g.check n = .error e ↔ g.Fault n e := by
  have hpasses {before after : List ℕ} {q : ℕ} (split : g.qubits = before ++ q :: after)
      (distinct : before.Nodup) (within : ∀ p ∈ before, p < n) :
      g.check n = checkDistinct g.name n before.reverse (q :: after) := by
    rw [check, split, checkDistinct_append distinct fun p hp => ⟨within p hp, List.not_mem_nil⟩,
      List.append_nil]
  constructor
  · exact fault_of_checkDistinct rfl .nil (by simp)
  · intro h
    cases h with
    | outOfRange split distinct within fault =>
      rw [hpasses split distinct within, checkDistinct, if_pos fault]
    | @repeated before after q split distinct within fault =>
      rw [hpasses split distinct within, checkDistinct,
        if_neg (not_le.mpr (within q fault)), if_pos (List.mem_reverse.mpr fault)]

theorem invalid_iff_exists_fault {g : Gate α} {n : ℕ} : g.Invalid n ↔ ∃ e, g.Fault n e := by
  simp only [invalid_iff, ← check_eq_ok, ← check_eq_error_iff]
  cases g.check n <;> simp

end Gate

/-! ## Operations in place -/

/-- An operation that changes a value in place and may fail. A failure leaves the value as it is at
that moment. -/
abbrev InPlace (σ : Type) : Type → Type := EStateM EngineError σ

/-- The library of the sequential device is always built in. -/
def Device.isAvailable (accelerated : Bool) : Device → Bool
  | .cpu => true
  | .gpu => accelerated

variable [Scalar α]

/-- One pass of a matrix over the entries, with the library of the device. -/
def multiplyOn (accelerated : Bool) (device : Device) (targets : List ℕ) (m : Array (Cplx α)) :
    InPlace (Array (Cplx α)) Unit :=
  if device.isAvailable accelerated then modify (applyOn device targets m)
  else throw (.deviceUnavailable device)

theorem multiplyOn_eq {accelerated : Bool} {device : Device}
    (h : device.isAvailable accelerated = true) (targets : List ℕ) (m : Array (Cplx α)) :
    multiplyOn accelerated device targets m = modify (applyOn device targets m) := if_pos h

namespace State

omit [Scalar α] in
def withEntries (s : State α) (entries : Array (Cplx α)) : State α :=
  match s with
  | vector s => vector { s with amplitudes := entries }
  | density d => density { d with elements := entries }

omit [Scalar α] in
/-- An operation on the entries of a state. -/
def onEntries (op : InPlace (Array (Cplx α)) Unit) : InPlace (State α) Unit := fun s =>
  match op s.entries with
  | .ok _ entries => .ok () (s.withEntries entries)
  | .error e entries => .error e (s.withEntries entries)

/-- The passes of a gate over the entries: a kernel, or a matrix on the device. -/
def passes (accelerated : Bool) (g : Gate α) : State α → InPlace (Array (Cplx α)) Unit
  | vector s =>
    match s.options.device with
    | .cpu => modify g.apply
    | .gpu => multiplyOn accelerated .gpu g.qubits g.matrix
  | density d => do
    multiplyOn accelerated d.options.device g.qubits g.matrix
    multiplyOn accelerated d.options.device (g.qubits.map (· + d.numQubits))
      (g.matrix.map Cplx.conj)

/-- A gate step by step: the check of its operands, the passes and the rounding. -/
def applyInPlace (accelerated : Bool) (g : Gate α) : InPlace (State α) Unit := do
  let s ← get
  MonadExcept.ofExcept (g.check s.numQubits)
  onEntries do
    s.passes accelerated g
    modify (keep s.options.precision)

end State

/-- The gates of a program one after another, up to the first one that fails. -/
def Program.runInPlace (accelerated : Bool) (p : Program α) : InPlace (State α) Unit := do
  let s ← get
  if s.numQubits ≠ p.numQubits then throw (.sizeMismatch p.numQubits s.numQubits)
  p.gates.forM (State.applyInPlace accelerated)

namespace State

variable {accelerated : Bool} {s : State α} {g : Gate α}

theorem applyGate_of_error {e : EngineError} (h : g.check s.numQubits = .error e) :
    s.applyGate g = .error e := by
  cases s with
  | vector s =>
    have hcheck : g.check s.numQubits = .error e := h
    simp only [applyGate, StateVector.applyGate, hcheck]
    rfl
  | density d =>
    have hcheck : g.check d.numQubits = .error e := h
    simp only [applyGate, DensityMatrix.applyGate, hcheck]
    rfl

theorem applyInPlace_of_error {e : EngineError} (h : g.check s.numQubits = .error e) :
    applyInPlace accelerated g s = .error e s := by
  change (MonadExcept.ofExcept (g.check s.numQubits) >>= _ : InPlace (State α) Unit) s = _
  rw [h]
  rfl

/-- A gate that passes the check has the passes of its answer. -/
theorem exists_passes (available : s.options.device.isAvailable accelerated = true)
    (h : g.check s.numQubits = .ok ()) :
    ∃ entries, s.passes accelerated g s.entries = .ok () entries ∧
      s.applyGate g = .ok (s.withEntries (keep s.options.precision entries)) := by
  cases s with
  | vector s =>
    have hcheck : g.check s.numQubits = .ok () := h
    cases hd : s.options.device with
    | cpu =>
      refine ⟨g.apply s.amplitudes, by simp only [passes, hd]; rfl, ?_⟩
      simp only [applyGate, StateVector.applyGate, hcheck, hd]
      rfl
    | gpu =>
      have hgpu : Device.gpu.isAvailable accelerated = true := hd ▸ available
      refine ⟨applyOn .gpu g.qubits g.matrix s.amplitudes, ?_, ?_⟩
      · simp only [passes, hd, multiplyOn_eq hgpu]
        rfl
      · simp only [applyGate, StateVector.applyGate, hcheck, hd]
        rfl
  | density d =>
    have hcheck : g.check d.numQubits = .ok () := h
    have hdevice : d.options.device.isAvailable accelerated = true := available
    refine ⟨_, by simp only [passes, multiplyOn_eq hdevice]; rfl, ?_⟩
    simp only [applyGate, DensityMatrix.applyGate, hcheck]
    rfl

theorem applyInPlace_of_passes (h : g.check s.numQubits = .ok ()) {entries : Array (Cplx α)}
    (hpasses : s.passes accelerated g s.entries = .ok () entries) :
    applyInPlace accelerated g s = .ok () (s.withEntries (keep s.options.precision entries)) := by
  have hentries : (do s.passes accelerated g; modify (keep s.options.precision) :
      InPlace (Array (Cplx α)) Unit) s.entries = .ok () (keep s.options.precision entries) := by
    change EStateM.bind _ _ _ = _
    rw [EStateM.bind, hpasses]
    rfl
  change (MonadExcept.ofExcept (g.check s.numQubits) >>= _ : InPlace (State α) Unit) s = _
  rw [h]
  change onEntries _ s = _
  rw [onEntries, hentries]

/-- In place a gate leaves the state that it has for an answer, or else the state as it was. -/
theorem applyInPlace_eq (available : s.options.device.isAvailable accelerated = true) (g : Gate α) :
    applyInPlace accelerated g s =
      match s.applyGate g with
      | .ok s' => .ok () s'
      | .error e => .error e s := by
  cases hcheck : g.check s.numQubits with
  | error e => rw [applyInPlace_of_error hcheck, applyGate_of_error hcheck]
  | ok u =>
    obtain ⟨entries, hpasses, happly⟩ := exists_passes available hcheck
    rw [happly, applyInPlace_of_passes hcheck hpasses]

/-- The states have as many entries and the same register and options. -/
structure Kept (s s' : State α) : Prop where
  size : s'.entries.size = s.entries.size
  numQubits : s'.numQubits = s.numQubits
  options : s'.options = s.options

namespace Kept

variable {s' s'' : State α}

omit [Scalar α] in
theorem refl (s : State α) : s.Kept s := ⟨rfl, rfl, rfl⟩

omit [Scalar α] in
theorem trans (h : s.Kept s') (h' : s'.Kept s'') : s.Kept s'' :=
  ⟨h'.size.trans h.size, h'.numQubits.trans h.numQubits, h'.options.trans h.options⟩

theorem applyGate (h : s.applyGate g = .ok s') : s.Kept s' := by
  cases s with
  | vector s =>
    obtain ⟨t, ht, rfl⟩ := map_eq_ok.mp h
    obtain ⟨-, hsize, hn, ho⟩ := StateVector.applyGate_eq_ok ht
    exact ⟨hsize, hn, ho⟩
  | density d =>
    obtain ⟨t, ht, rfl⟩ := map_eq_ok.mp h
    obtain ⟨-, hsize, hn, ho⟩ := DensityMatrix.applyGate_eq_ok ht
    exact ⟨hsize, hn, ho⟩

end Kept

theorem applyGate_eq_error_iff {e : EngineError} :
    s.applyGate g = .error e ↔ g.Fault s.numQubits e := by
  rw [← Gate.check_eq_error_iff]
  cases hcheck : g.check s.numQubits with
  | error e' => rw [applyGate_of_error hcheck, Except.error.injEq, Except.error.injEq]
  | ok u =>
    obtain ⟨t, ht⟩ := exists_applyGate (Gate.check_eq_ok.mp hcheck)
    simp [ht]

theorem applyInPlace_eq_error_iff (available : s.options.device.isAvailable accelerated = true)
    {e : EngineError} {s' : State α} :
    applyInPlace accelerated g s = .error e s' ↔ s' = s ∧ g.Fault s.numQubits e := by
  rw [applyInPlace_eq available, ← applyGate_eq_error_iff]
  cases s.applyGate g with
  | error e' =>
    simp only [EStateM.Result.error.injEq, Except.error.injEq]
    exact ⟨fun ⟨he, hs⟩ => ⟨hs.symm, he⟩, fun ⟨hs, he⟩ => ⟨he, hs.symm⟩⟩
  | ok t => simp

theorem kept_applyInPlace (available : s.options.device.isAvailable accelerated = true)
    (g : Gate α) : s.Kept (leaves (applyInPlace accelerated g s)) := by
  rw [applyInPlace_eq available]
  cases h : s.applyGate g with
  | error e => exact .refl s
  | ok t => exact .applyGate h

end State

/-! ## Programs -/

namespace Program

variable {s : State α}

/-- A run stops at a faulty gate, after the valid ones before it. -/
theorem applyGates_of_fault {before after : List (Gate α)} {g : Gate α} {e : EngineError}
    (hbefore : ∀ h ∈ before, ¬ h.Invalid s.numQubits) (hg : g.Fault s.numQubits e) :
    ∃ s', before.foldlM State.applyGate s = .ok s' ∧ s.Kept s' ∧
      applyGates (before ++ g :: after) s = (s', some e) := by
  induction before generalizing s with
  | nil =>
    have herror := State.applyGate_of_error (Gate.check_eq_error_iff.mpr hg)
    exact ⟨s, rfl, .refl s, by rw [List.nil_append, applyGates, herror]⟩
  | cons h rest ih =>
    obtain ⟨hh, hrest⟩ := List.forall_mem_cons.mp hbefore
    obtain ⟨t, ht⟩ := State.exists_applyGate (not_not.mp (Gate.invalid_iff.not.mp hh))
    have hkept := State.Kept.applyGate ht
    rw [← hkept.numQubits] at hrest hg
    obtain ⟨s', hfold, hkept', happly⟩ := ih hrest hg
    refine ⟨s', ?_, hkept.trans hkept', ?_⟩
    · rw [List.foldlM_cons, ht]
      exact hfold
    · rw [List.cons_append, applyGates, ht]
      exact happly

theorem applyGates_of_valid {gates : List (Gate α)}
    (h : ∀ g ∈ gates, ¬ g.Invalid s.numQubits) :
    ∃ s', gates.foldlM State.applyGate s = .ok s' ∧ applyGates gates s = (s', none) := by
  induction gates generalizing s with
  | nil => exact ⟨s, rfl, rfl⟩
  | cons g rest ih =>
    obtain ⟨hg, hrest⟩ := List.forall_mem_cons.mp h
    obtain ⟨t, ht⟩ := State.exists_applyGate (not_not.mp (Gate.invalid_iff.not.mp hg))
    rw [← (State.Kept.applyGate ht).numQubits] at hrest
    obtain ⟨s', hfold, happly⟩ := ih hrest
    refine ⟨s', ?_, ?_⟩
    · rw [List.foldlM_cons, ht]
      exact hfold
    · rw [applyGates, ht]
      exact happly

/-- What stops the gates of a run is a fault of one of them, and the state keeps its form. -/
theorem applyGates_spec (gates : List (Gate α)) (s : State α) :
    s.Kept (applyGates gates s).1 ∧
      ∀ e, (applyGates gates s).2 = some e → ∃ g ∈ gates, g.Fault s.numQubits e := by
  induction gates generalizing s with
  | nil => exact ⟨.refl s, fun e he => by cases he⟩
  | cons g rest ih =>
    rw [applyGates]
    cases hg : s.applyGate g with
    | error e =>
      refine ⟨.refl s, fun e' he => ⟨g, List.mem_cons_self, ?_⟩⟩
      obtain rfl : e = e' := Option.some.inj he
      exact State.applyGate_eq_error_iff.mp hg
    | ok t =>
      obtain ⟨hkept, hfault⟩ := ih t
      have ht := State.Kept.applyGate hg
      refine ⟨ht.trans hkept, fun e he => ?_⟩
      obtain ⟨g', hmem, hg'⟩ := hfault e he
      exact ⟨g', List.mem_cons_of_mem _ hmem, ht.numQubits ▸ hg'⟩

variable {accelerated : Bool}

omit [Scalar α] in
/-- In place a run leaves the state of its answer. -/
def answerInPlace : State α × Option EngineError → EStateM.Result EngineError (State α) Unit
  | (s, none) => .ok () s
  | (s, some e) => .error e s

omit [Scalar α] in
theorem answerInPlace_eq_error {r : State α × Option EngineError} {e : EngineError}
    {s' : State α} : answerInPlace r = .error e s' ↔ r = (s', some e) := by
  obtain ⟨t, stop⟩ := r
  cases stop with
  | none => simp [answerInPlace]
  | some e' => simp [answerInPlace, and_comm]

omit [Scalar α] in
theorem leaves_answerInPlace (r : State α × Option EngineError) :
    leaves (answerInPlace r) = r.1 := by
  obtain ⟨t, stop⟩ := r
  cases stop <;> rfl

theorem forM_applyInPlace (available : s.options.device.isAvailable accelerated = true)
    (gates : List (Gate α)) :
    gates.forM (State.applyInPlace accelerated) s = answerInPlace (applyGates gates s) := by
  induction gates generalizing s with
  | nil => rfl
  | cons g rest ih =>
    change EStateM.bind (State.applyInPlace accelerated g) _ s = _
    rw [EStateM.bind, State.applyInPlace_eq available, applyGates]
    cases h : s.applyGate g with
    | error e => rfl
    | ok t => exact ih ((State.Kept.applyGate h).options ▸ available)

theorem runInPlace_eq (available : s.options.device.isAvailable accelerated = true)
    (p : Program α) : p.runInPlace accelerated s = answerInPlace (p.run s) := by
  change (if s.numQubits ≠ p.numQubits then _ else _ : InPlace (State α) Unit) s = _
  by_cases hn : s.numQubits = p.numQubits
  · rw [run_eq_applyGates hn, ← forM_applyInPlace available, if_neg (not_not.mpr hn)]
  · rw [run, if_pos hn, if_pos hn]
    rfl

/-- A run with the sizes of program and state in agreement fails only with a fault of a gate. -/
theorem run_eq_sizeMismatch {p : Program α} {k m : ℕ} {s' : State α}
    (h : p.run s = (s', some (.sizeMismatch k m))) :
    s' = s ∧ s.numQubits ≠ p.numQubits ∧ k = p.numQubits ∧ m = s.numQubits := by
  by_cases hn : s.numQubits = p.numQubits
  · rw [run_eq_applyGates hn] at h
    obtain ⟨g, -, hg⟩ := (applyGates_spec p.gates s).2 (.sizeMismatch k m) (by rw [h])
    cases hg
  · rw [run, if_pos hn] at h
    obtain ⟨rfl, he⟩ := Prod.mk.inj h
    obtain ⟨rfl, rfl⟩ := EngineError.sizeMismatch.inj (Option.some.inj he)
    exact ⟨rfl, hn, rfl, rfl⟩

theorem kept_run (p : Program α) (s : State α) : s.Kept (p.run s).1 := by
  unfold run
  split
  · exact .refl s
  · exact (applyGates_spec p.gates s).1

section Outcomes

variable (available : s.options.device.isAvailable accelerated = true) {p : Program α}

include available

theorem runInPlace_eq_sizeMismatch_iff {k m : ℕ} {s' : State α} :
    p.runInPlace accelerated s = .error (.sizeMismatch k m) s' ↔
      s.numQubits ≠ p.numQubits ∧ s' = s ∧ k = p.numQubits ∧ m = s.numQubits := by
  rw [runInPlace_eq available, answerInPlace_eq_error]
  constructor
  · intro h
    obtain ⟨hs, hn, hk, hm⟩ := run_eq_sizeMismatch h
    exact ⟨hn, hs, hk, hm⟩
  · rintro ⟨hn, rfl, rfl, rfl⟩
    rw [run, if_pos hn]

theorem exists_runInPlace_of_valid (hn : s.numQubits = p.numQubits)
    (h : ∀ g ∈ p.gates, ¬ g.Invalid s.numQubits) :
    ∃ s', p.gates.foldlM State.applyGate s = .ok s' ∧ p.runInPlace accelerated s = .ok () s' := by
  obtain ⟨s', hfold, hgates⟩ := applyGates_of_valid h
  refine ⟨s', hfold, ?_⟩
  rw [runInPlace_eq available, run_eq_applyGates hn, hgates, answerInPlace]

/-- A run leaves the state after the gates before the first invalid one, with the error that this
gate has on that state. -/
theorem exists_runInPlace_of_invalid (hn : s.numQubits = p.numQubits)
    {before after : List (Gate α)} {g : Gate α} (hsplit : p.gates = before ++ g :: after)
    (hbefore : ∀ h ∈ before, ¬ h.Invalid s.numQubits) (hg : g.Invalid s.numQubits) :
    ∃ s' e, g.Fault s.numQubits e ∧ before.foldlM State.applyGate s = .ok s' ∧
      State.applyInPlace accelerated g s' = .error e s' ∧
      p.runInPlace accelerated s = .error e s' := by
  obtain ⟨e, he⟩ := Gate.invalid_iff_exists_fault.mp hg
  obtain ⟨s', hfold, hkept, hgates⟩ := applyGates_of_fault hbefore he
  refine ⟨s', e, he, hfold, ?_, ?_⟩
  · exact (State.applyInPlace_eq_error_iff (hkept.options ▸ available)).mpr
      ⟨rfl, hkept.numQubits ▸ he⟩
  · rw [runInPlace_eq available, run_eq_applyGates hn, hsplit, hgates, answerInPlace]

theorem kept_runInPlace (p : Program α) : s.Kept (leaves (p.runInPlace accelerated s)) := by
  rw [runInPlace_eq available, leaves_answerInPlace]
  exact kept_run p s

end Outcomes

end Program

/-- A gate fails exactly if one of its operands lies outside the register or repeats. Its error is
about the first such operand, and the state is as it was. A program fails with a mismatch exactly if
its size is not that of the state, which then is as it was. Otherwise it leaves the state after all
its gates, or after those before the first invalid one, with the error of that gate. No gate and no
program changes the number of entries, the register or the options. -/
theorem State.fails_cleanly {accelerated : Bool} {s : State α}
    (available : s.options.device.isAvailable accelerated = true) :
    (∀ g : Gate α,
      ((∃ e s', applyInPlace accelerated g s = .error e s') ↔ g.Invalid s.numQubits) ∧
      ∀ e s', applyInPlace accelerated g s = .error e s' → s' = s ∧ g.Fault s.numQubits e) ∧
    (∀ p : Program α,
      ((∃ k m s', p.runInPlace accelerated s = .error (.sizeMismatch k m) s') ↔
        s.numQubits ≠ p.numQubits) ∧
      ∀ k m s', p.runInPlace accelerated s = .error (.sizeMismatch k m) s' →
        s' = s ∧ k = p.numQubits ∧ m = s.numQubits) ∧
    (∀ p : Program α, s.numQubits = p.numQubits →
      ((∀ g ∈ p.gates, ¬ g.Invalid s.numQubits) → ∃ s',
        p.gates.foldlM applyGate s = .ok s' ∧ p.runInPlace accelerated s = .ok () s') ∧
      ∀ before g after, p.gates = before ++ g :: after →
        (∀ h ∈ before, ¬ h.Invalid s.numQubits) → g.Invalid s.numQubits →
        ∃ s' e, g.Fault s.numQubits e ∧ before.foldlM applyGate s = .ok s' ∧
          applyInPlace accelerated g s' = .error e s' ∧ p.runInPlace accelerated s = .error e s') ∧
    (∀ g : Gate α, s.Kept (leaves (applyInPlace accelerated g s))) ∧
    ∀ p : Program α, s.Kept (leaves (p.runInPlace accelerated s)) := by
  refine ⟨fun g => ⟨?_, fun e s' => (applyInPlace_eq_error_iff available).mp⟩, fun p => ⟨?_, ?_⟩,
    fun p hn => ⟨Program.exists_runInPlace_of_valid available hn, ?_⟩,
    kept_applyInPlace available, Program.kept_runInPlace available⟩
  · simp only [applyInPlace_eq_error_iff available, exists_eq_left, Gate.invalid_iff_exists_fault]
  · simp only [Program.runInPlace_eq_sizeMismatch_iff available]
    constructor
    · rintro ⟨-, -, -, hn, -⟩
      exact hn
    · exact fun hn => ⟨_, _, s, hn, rfl, rfl, rfl⟩
  · intro k m s' h
    exact ((Program.runInPlace_eq_sizeMismatch_iff available).mp h).2
  · intro before g after hsplit hbefore hg
    exact Program.exists_runInPlace_of_invalid available hn hsplit hbefore hg

/-- A density matrix on the accelerated device keeps the first gate of a program whose second one
exchanges a qubit with itself. -/
theorem State.fails_cleanly_density :
    let o : Options := ⟨.gpu, .single⟩
    ∃ (d : DensityMatrix Float) (s' : State Float), DensityMatrix.zero 1 o = .ok d ∧
      [Gate.h 0].foldlM State.applyGate (.density d) = .ok s' ∧
      State.applyInPlace true (.swap 0 0) s' = .error (.duplicateQubit "SWAP" 0) s' ∧
      Program.runInPlace true ⟨1, [.h 0, .swap 0 0, .x 7]⟩ (.density d) =
        .error (.duplicateQubit "SWAP" 0) s' := by
  intro o
  let d : DensityMatrix Float := ⟨(Array.replicate (2 ^ 2) 0).setIfInBounds 0 1, 1, o⟩
  have available : (State.density d).options.device.isAvailable true = true := rfl
  have hvalid : ∀ g ∈ [(Gate.h 0 : Gate Float)], ¬ g.Invalid 1 := by
    simp [Gate.invalid_iff, ← Gate.check_eq_ok, Gate.check, checkDistinct, Gate.qubits]
  have hinvalid : (Gate.swap 0 0 : Gate Float).Invalid 1 := .inr (by decide)
  obtain ⟨-, -, hruns, -, -⟩ := State.fails_cleanly available
  obtain ⟨s', e, hfault, hfold, hgate, hrun⟩ :=
    (hruns ⟨1, [.h 0, .swap 0 0, .x 7]⟩ rfl).2 [.h 0] (.swap 0 0) [.x 7] rfl hvalid hinvalid
  obtain rfl : EngineError.duplicateQubit "SWAP" 0 = e :=
    Except.error.inj (Gate.check_eq_error_iff.mpr hfault)
  exact ⟨d, s', rfl, hfold, hgate, hrun⟩

end KetSim.Engine

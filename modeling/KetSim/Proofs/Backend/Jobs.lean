import Mathlib.Data.List.Infix
import Mathlib.Order.Defs.PartialOrder
import KetSim.Backend.Job

/-! # Lives of jobs

The statuses are ordered by the stages of a life, where success and the failures are
different ends. What a job has recorded stays, and an ended job stays as it is. The
status itself only moves forwards unless a running job is asked to queue: a call
checks for the ends alone.
-/
namespace KetSim

/-! ## Order of the statuses -/

namespace JobStatus

/-- The stage of a life, counted from 0. -/
def stage : JobStatus → ℕ
  | queued => 0
  | running => 1
  | completed | failed _ => 2

/-- A later status is one of a later stage. -/
instance : PartialOrder JobStatus where
  le s t := s = t ∨ s.stage < t.stage
  le_refl s := .inl rfl
  le_trans s t u := by
    rintro (rfl | hst) (rfl | htu)
    · exact .inl rfl
    · exact .inr htu
    · exact .inr hst
    · exact .inr (hst.trans htu)
  le_antisymm s t := by
    rintro (rfl | hst) (hts | hts)
    · rfl
    · rfl
    · exact hts.symm
    · exact absurd hst hts.asymm

theorem le_iff {s t : JobStatus} : s ≤ t ↔ s = t ∨ s.stage < t.stage := Iff.rfl

theorem not_running_le_queued : ¬ running ≤ queued := by
  simp [le_iff, stage]

/-- Of the statuses before an end, only `running` has another one before it. -/
theorem le_of_not_isTerminal {s t : JobStatus} (hs : s.isTerminal = false)
    (h : s = running → t ≠ queued) : s ≤ t := by
  cases s with
  | queued => cases t <;> simp [le_iff, stage]
  | running =>
    cases t with
    | queued => exact absurd rfl (h rfl)
    | running => exact le_refl _
    | completed | failed reason => exact .inr Nat.one_lt_two
  | completed | failed reason => cases hs

end JobStatus

namespace Job

/-! ## One call -/

theorem status_transition {j : Job} (h : j.status.isTerminal = false) (status : JobStatus)
    (now : Timestamp) : (j.transition status now).status = status := by
  simp [transition, h]

/-- A job with a finish time has ended, and an ended job has one. -/
def Stamped (j : Job) : Prop := j.finishedAt.isSome = j.status.isTerminal

/-- What stays of a job in its later life. An ended job stays as a whole, its reason included. -/
structure Keeps (j j' : Job) : Prop where
  id : j'.id = j.id
  mode : j'.mode = j.mode
  createdAt : j'.createdAt = j.createdAt
  backend : j'.backend = j.backend
  startedAt : ∀ t, j.startedAt = some t → j'.startedAt = some t
  finishedAt : ∀ t, j.finishedAt = some t → j'.finishedAt = some t
  ended : j.status.isTerminal → j' = j

theorem Keeps.refl (j : Job) : j.Keeps j :=
  ⟨rfl, rfl, rfl, rfl, fun _ h => h, fun _ h => h, fun _ => rfl⟩

theorem Keeps.trans {j j' j'' : Job} (h : j.Keeps j') (h' : j'.Keeps j'') : j.Keeps j'' where
  id := h'.id.trans h.id
  mode := h'.mode.trans h.mode
  createdAt := h'.createdAt.trans h.createdAt
  backend := h'.backend.trans h.backend
  startedAt t ht := h'.startedAt t (h.startedAt t ht)
  finishedAt t ht := h'.finishedAt t (h.finishedAt t ht)
  ended hj := by
    obtain rfl := h.ended hj
    exact h'.ended hj

theorem keeps_transition (j : Job) (status : JobStatus) (now : Timestamp) :
    j.Keeps (j.transition status now) := by
  cases hj : j.status.isTerminal with
  | true =>
    rw [transition_of_isTerminal hj]
    exact .refl j
  | false =>
    simp only [transition, hj, Bool.false_eq_true, ↓reduceIte]
    refine ⟨rfl, rfl, rfl, rfl, fun t ht => ?_, fun t ht => ?_, fun h => absurd h (by simp [hj])⟩
    · simp [ht]
    · simp [ht]

theorem Stamped.transition {j : Job} (h : j.Stamped) (status : JobStatus) (now : Timestamp) :
    (j.transition status now).Stamped := by
  cases hj : j.status.isTerminal with
  | true =>
    rw [transition_of_isTerminal hj]
    exact h
  | false =>
    have hnone : j.finishedAt = none := by simpa [Stamped, hj] using h
    cases hs : status.isTerminal <;> simp [Job.transition, Stamped, hj, hs, hnone]

/-! ## Sequences of calls -/

/-- The job after calls with a status and a time each. -/
def after (j : Job) (calls : List (JobStatus × Timestamp)) : Job :=
  calls.foldl (fun j call => j.transition call.1 call.2) j

variable {id : JobId} {mode : String} {now t t' : Timestamp}
  {calls earlier later : List (JobStatus × Timestamp)}

theorem after_append (j : Job) : j.after (earlier ++ later) = (j.after earlier).after later :=
  List.foldl_append

theorem after_concat (j : Job) (status : JobStatus) :
    j.after (earlier ++ [(status, t)]) = (j.after earlier).transition status t := by
  rw [after_append]
  rfl

theorem keeps_after (j : Job) (calls : List (JobStatus × Timestamp)) : j.Keeps (j.after calls) := by
  induction calls generalizing j with
  | nil => exact .refl j
  | cons call rest ih => exact (keeps_transition j call.1 call.2).trans (ih _)

theorem Stamped.after {j : Job} (h : j.Stamped) (calls : List (JobStatus × Timestamp)) :
    (j.after calls).Stamped := by
  induction calls generalizing j with
  | nil => exact h
  | cons call rest ih => exact ih (h.transition call.1 call.2)

/-- A job ends with the first call for an end. -/
theorem isTerminal_after {j : Job} (h : j.status.isTerminal = false) :
    (j.after calls).status.isTerminal = true ↔ ∃ call ∈ calls, call.1.isTerminal := by
  induction calls generalizing j with
  | nil => simp [after, h]
  | cons call rest ih =>
    have hstatus : (j.transition call.1 call.2).status = call.1 := status_transition h _ _
    rw [List.exists_mem_cons_iff]
    cases hcall : call.1.isTerminal with
    | true =>
      refine iff_of_true ?_ (.inl rfl)
      have hended : (j.transition call.1 call.2).status.isTerminal := by rw [hstatus, hcall]
      rw [show j.after (call :: rest) = (j.transition call.1 call.2).after rest from rfl,
        (keeps_after _ rest).ended hended]
      exact hended
    | false => exact (ih (hstatus ▸ hcall)).trans (by simp)

/-- A job that has been created runs after a call for that status, if no call before is for an
end. -/
theorem status_after_eq_running :
    ((new id mode now).after calls).status = .running ↔
      ∃ earlier t, calls = earlier ++ [(.running, t)] ∧ ∀ call ∈ earlier, ¬ call.1.isTerminal := by
  have hnew : (new id mode now).status.isTerminal = false := rfl
  rcases calls.eq_nil_or_concat' with rfl | ⟨earlier, ⟨status, t⟩, rfl⟩
  · simp [after, new]
  · have hended : ((new id mode now).after earlier).status.isTerminal = true ↔
        ∃ call ∈ earlier, call.1.isTerminal := isTerminal_after hnew
    rw [after_concat]
    cases h : ((new id mode now).after earlier).status.isTerminal with
    | true =>
      rw [transition_of_isTerminal h]
      refine iff_of_false (fun hrunning => by simp [hrunning, JobStatus.isTerminal] at h) ?_
      rintro ⟨earlier', t', heq, hall⟩
      obtain ⟨rfl, -⟩ := List.append_inj' heq rfl
      obtain ⟨call, hmem, hcall⟩ := hended.mp h
      exact hall call hmem hcall
    | false =>
      rw [status_transition h]
      have hall (call : JobStatus × Timestamp) (hmem : call ∈ earlier) : ¬ call.1.isTerminal :=
        fun hcall => by simpa [h] using hended.mpr ⟨call, hmem, hcall⟩
      constructor
      · rintro rfl
        exact ⟨earlier, t, rfl, hall⟩
      · rintro ⟨earlier', t', heq, -⟩
        obtain ⟨-, hlast⟩ := List.append_inj' heq rfl
        exact congrArg Prod.fst (List.cons.inj hlast).1

/-- The status moves forwards from each call to all later ones. -/
def Forwards (j : Job) (calls : List (JobStatus × Timestamp)) : Prop :=
  ∀ earlier later, earlier <+: later → later <+: calls →
    (j.after earlier).status ≤ (j.after later).status

theorem forwards_of_steps {j : Job} (h : ∀ earlier status t, earlier ++ [(status, t)] <+: calls →
    (j.after earlier).status ≤ ((j.after earlier).transition status t).status) :
    j.Forwards calls := by
  intro earlier later hearlier hlater
  induction later using List.reverseRecOn with
  | nil => rw [List.prefix_nil.mp hearlier]
  | append_singleton later call ih =>
    rcases List.prefix_concat_iff.mp hearlier with rfl | hearlier
    · exact le_rfl
    · have hstep := h later call.1 call.2 hlater
      rw [← after_concat] at hstep
      exact (ih hearlier ((List.prefix_append _ _).trans hlater)).trans hstep

/-- Whatever calls are made for a job that has been created, what it has recorded stays, and an
ended job stays as it is. It has a finish time exactly if it has ended. The status moves forwards
on the way exactly if no call asks a job to queue right after a call that has it run, unless the job
has ended before. -/
theorem keeps_stamped_forwards_iff (id : JobId) (mode : String) (now : Timestamp) :
    (∀ earlier later, ((new id mode now).after earlier).Keeps
      ((new id mode now).after (earlier ++ later))) ∧
    (∀ calls, ((new id mode now).after calls).finishedAt.isSome =
      ((new id mode now).after calls).status.isTerminal) ∧
    ∀ calls, (new id mode now).Forwards calls ↔
      ∀ earlier t t' later, calls = earlier ++ (.running, t) :: (.queued, t') :: later →
        ∃ call ∈ earlier, call.1.isTerminal := by
  have hnew : (new id mode now).Stamped := rfl
  refine ⟨fun earlier later => ?_, fun calls => hnew.after calls,
    fun calls => ⟨fun h => ?_, fun h => ?_⟩⟩
  · rw [after_append]
    exact keeps_after _ later
  · rintro earlier t t' later rfl
    by_contra! hopen
    have hrunning : ((new id mode now).after (earlier ++ [(.running, t)])).status = .running :=
      status_after_eq_running.mpr ⟨earlier, t, rfl, hopen⟩
    have hle := h (earlier ++ [(.running, t)]) (earlier ++ [(.running, t)] ++ [(.queued, t')])
      (List.prefix_append _ _) ⟨later, by simp⟩
    rw [after_concat _ .queued, status_transition (by rw [hrunning]; rfl), hrunning] at hle
    exact JobStatus.not_running_le_queued hle
  · refine forwards_of_steps fun earlier status t hprefix => ?_
    cases hj : ((new id mode now).after earlier).status.isTerminal with
    | true => rw [transition_of_isTerminal hj]
    | false =>
      rw [status_transition hj]
      refine JobStatus.le_of_not_isTerminal hj fun hrunning hqueued => ?_
      obtain ⟨before, t₀, rfl, hopen⟩ := status_after_eq_running.mp hrunning
      obtain ⟨later, rfl⟩ := hprefix
      obtain ⟨call, hmem, hcall⟩ := h before t₀ t later (by simp [hqueued])
      exact hopen call hmem hcall

/-- A running job that is asked to queue has moved backwards. -/
theorem queued_after_running :
    let now : Timestamp := ⟨2024, 1, 1, 0, 0, 0, 0⟩
    let j := new ⟨"j"⟩ "shots" now
    (j.after [(.running, now)]).status = .running ∧
      (j.after [(.running, now), (.queued, now)]).status = .queued ∧
      ¬ j.Forwards [(.running, now), (.queued, now)] := by
  intro now j
  refine ⟨rfl, rfl, fun h => ?_⟩
  have hle := h [(.running, now)] _ ⟨[(.queued, now)], rfl⟩ List.prefix_rfl
  exact JobStatus.not_running_le_queued hle

end Job

end KetSim

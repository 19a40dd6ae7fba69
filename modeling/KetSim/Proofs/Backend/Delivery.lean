import KetSim.Proofs.Backend.Reachable

/-! # Delivery of outcomes

A submission enters its job, runs it without holding the store, and enters the
outcome; questions and fetches of any client come in between. Under any interleaving
a job runs or keeps the outcome of its own run, until a single fetch takes it away.
-/
namespace KetSim

variable {α : Type}

/-- What a fetch hands out for the outcome of a run; a failure is told by its message. -/
def handed (outcome : Except (BackendError α) (ExecutionResult α)) :
    Except (BackendError α) (ExecutionResult α) :=
  outcome.mapError fun e => .jobFailed e.message

/-! ## Entries -/

/-- The entry of a job that runs, or has ended with an outcome. -/
inductive JobEntry.Shows :
    JobEntry α → Option (Except (BackendError α) (ExecutionResult α)) → Prop
  | running {job : Job} (h : job.status = .running) : Shows ⟨job, none⟩ none
  | completed {job : Job} {r : ExecutionResult α} (h : job.status = .completed) :
      Shows ⟨job, some r⟩ (some (.ok r))
  | failed {job : Job} {e : BackendError α} (h : job.status = .failed e.message) :
      Shows ⟨job, none⟩ (some (.error e))

/-- Running or failed without a result, or completed with one. -/
def JobEntry.Staged (entry : JobEntry α) : Prop :=
  (entry.job.status = .running ∧ entry.result = none) ∨
    (entry.job.status = .completed ∧ ∃ r, entry.result = some r) ∨
      ∃ reason, entry.job.status = .failed reason ∧ entry.result = none

namespace JobEntry.Shows

variable {entry : JobEntry α} {outcome : Except (BackendError α) (ExecutionResult α)}

theorem staged {o : Option (Except (BackendError α) (ExecutionResult α))} (h : entry.Shows o) :
    entry.Staged := by
  cases h with
  | running h => exact .inl ⟨h, rfl⟩
  | completed h => exact .inr (.inl ⟨h, _, rfl⟩)
  | failed h => exact .inr (.inr ⟨_, h, rfl⟩)

theorem status_eq (h : entry.Shows none) : entry.job.status = .running := by
  cases h with
  | running h => exact h

theorem isTerminal (h : entry.Shows (some outcome)) : entry.job.status.isTerminal = true := by
  cases h with
  | completed h => rw [h]; rfl
  | failed h => rw [h]; rfl

theorem outcome_eq (h : entry.Shows (some outcome)) (id : JobId) :
    JobStore.outcome id entry = handed outcome := by
  cases h with
  | completed h => simp only [JobStore.outcome, h]; rfl
  | failed h => simp only [JobStore.outcome, h]; rfl

end JobEntry.Shows

/-! ## Calls -/

theorem JobId.text_eq_iff {id other : JobId} : id.text = other.text ↔ id = other := by
  cases id
  cases other
  simp

namespace JobStore

variable {s : JobStore α} {id : JobId}

theorem find?_start {job : Job} (h : s.find? job.id = none) (now : Timestamp) (id : JobId) :
    (s.start job now).find? id =
      if id = job.id then some ⟨job.transition .running now, none⟩ else s.find? id := by
  have hentered (id : JobId) : (⟨s.entries ++ [(job.id.text, ⟨job, none⟩)]⟩ : JobStore α).find? id =
      if id = job.id then some ⟨job, none⟩ else s.find? id := by
    rw [find?, lookup_concat h]
    simp only [JobId.text_eq_iff, find?]
  rw [start, h, find?_update]
  simp only [Option.isSome_none, Bool.false_eq_true, ↓reduceIte, hentered]
  split <;> rfl

theorem find?_finish {entry : JobEntry α} (h : s.find? id = some entry) (hs : entry.Shows none)
    (outcome : Except (BackendError α) (ExecutionResult α)) (now : Timestamp) :
    ∃ ended : JobEntry α, ended.Shows (some outcome) ∧ ∀ other,
      (s.finish id outcome now).find? other =
        if other = id then some ended else s.find? other := by
  have htransition (status : JobStatus) : (entry.job.transition status now).status = status := by
    rw [Job.transition, hs.status_eq]
    rfl
  obtain ⟨job, result⟩ := entry
  cases hs with
  | running hrunning =>
    cases outcome with
    | ok r =>
      refine ⟨_, .completed (htransition .completed), fun other => ?_⟩
      rw [finish, find?_update, h]
      rfl
    | error e =>
      refine ⟨_, .failed (htransition (.failed e.message)), fun other => ?_⟩
      rw [finish, find?_update, h]
      rfl

theorem take_of_running {entry : JobEntry α} (h : s.find? id = some entry)
    (hs : entry.job.status = .running) : s.take id = (s, .error (noResult id .running)) := by
  simp only [take, h, hs]
  rfl

theorem take_of_missing (h : s.find? id = none) :
    s.take id = (s, .error (.jobNotFound id.text)) := by
  simp only [take, h]

theorem take_of_ended {entry : JobEntry α} (h : s.find? id = some entry)
    (hended : entry.job.status.isTerminal = true) :
    s.take id = (⟨s.entries.filter (·.1 ≠ id.text)⟩, outcome id entry) := by
  simp only [take, h, hended, ↓reduceIte]

/-- A refused fetch leaves the store as it is. -/
theorem take_of_waiting
    (h : ∀ entry, s.find? id = some entry → entry.job.status.isTerminal = false) :
    (s.take id).1 = s := by
  cases hfind : s.find? id with
  | none => rw [take_of_missing hfind]
  | some entry => simp only [take, hfind, h entry hfind, Bool.false_eq_true, ↓reduceIte]

theorem find?_filter (s : JobStore α) (id other : JobId) :
    (⟨s.entries.filter (·.1 ≠ id.text)⟩ : JobStore α).find? other =
      if other = id then none else s.find? other := by
  rw [find?, lookup_filter (fun name => decide (name ≠ id.text))]
  simp only [decide_eq_true_eq, ne_eq, ite_not, JobId.text_eq_iff, find?]

theorem names_update (s : JobStore α) (id : JobId) (f : JobEntry α → JobEntry α) :
    (s.update id f).entries.map (·.1) = s.entries.map (·.1) := by
  rw [update, List.map_map]
  apply List.map_congr_left
  intro entry _
  simp only [Function.comp_apply]
  split <;> rfl

theorem nodup_start (h : (s.entries.map (·.1)).Nodup) {job : Job} (hnew : s.find? job.id = none)
    (now : Timestamp) : ((s.start job now).entries.map (·.1)).Nodup := by
  have hmissing : job.id.text ∉ s.entries.map (·.1) := lookup_eq_none.mp hnew
  rw [start, hnew, names_update]
  simp only [Option.isSome_none, Bool.false_eq_true, ↓reduceIte, List.map_append, List.map_cons,
    List.map_nil]
  exact List.nodup_append.mpr ⟨h, List.nodup_singleton _, fun name hn other ho =>
    List.mem_singleton.mp ho ▸ ne_of_mem_of_not_mem hn hmissing⟩

end JobStore

/-! ## Interleavings -/

/-- A call on the store, with its answer if it has one. A fetch is refused or delivers. -/
inductive Event (α : Type) where
  | started (id : JobId)
  | finished (id : JobId) (outcome : Except (BackendError α) (ExecutionResult α))
  | answered (id : JobId) (answer : Except (BackendError α) JobStatus)
  | refused (id : JobId) (answer : Except (BackendError α) (ExecutionResult α))
  | delivered (id : JobId) (answer : Except (BackendError α) (ExecutionResult α))

namespace Event

/-- Whether an event changes what is known of a job. -/
def Concerns (id : JobId) : Event α → Prop
  | started other | finished other _ | delivered other _ => other = id
  | answered _ _ | refused _ _ => False

def delivers (id : JobId) : Event α → Bool
  | delivered other _ => other = id
  | _ => false

end Event

/-- The stores that calls lead to, with the calls, the latest one first. Every job is queued and has
an id of its own; a run ends once at most. -/
inductive Run : List (Event α) → JobStore α → Prop
  | empty : Run [] .empty
  | start {events : List (Event α)} {s : JobStore α} {job : Job} (h : Run events s)
      (queued : job.status = .queued) (fresh : .started job.id ∉ events) (now : Timestamp) :
      Run (.started job.id :: events) (s.start job now)
  | finish {events : List (Event α)} {s : JobStore α} {id : JobId} (h : Run events s)
      (started : .started id ∈ events) (unfinished : ∀ o, .finished id o ∉ events)
      (outcome : Except (BackendError α) (ExecutionResult α)) (now : Timestamp) :
      Run (.finished id outcome :: events) (s.finish id outcome now)
  | status {events : List (Event α)} {s : JobStore α} (h : Run events s) (id : JobId) :
      Run (.answered id (s.status id) :: events) s
  | refuse {events : List (Event α)} {s : JobStore α} {id : JobId} (h : Run events s)
      (waiting : ∀ entry, s.find? id = some entry → entry.job.status.isTerminal = false) :
      Run (.refused id (s.take id).2 :: events) (s.take id).1
  | deliver {events : List (Event α)} {s : JobStore α} {id : JobId} {entry : JobEntry α}
      (h : Run events s) (found : s.find? id = some entry)
      (ended : entry.job.status.isTerminal = true) :
      Run (.delivered id (s.take id).2 :: events) (s.take id).1

/-- How far a job has come. -/
inductive Phase (α : Type) where
  | unknown
  | running
  | ended (outcome : Except (BackendError α) (ExecutionResult α))
  | gone (outcome : Except (BackendError α) (ExecutionResult α))

namespace Phase

/-- What a store keeps of a job. -/
inductive Matches : Phase α → Option (JobEntry α) → Prop
  | unknown : Matches .unknown none
  | running {entry : JobEntry α} (h : entry.Shows none) : Matches .running (some entry)
  | ended {entry : JobEntry α} {outcome : Except (BackendError α) (ExecutionResult α)}
      (h : entry.Shows (some outcome)) : Matches (.ended outcome) (some entry)
  | gone {outcome : Except (BackendError α) (ExecutionResult α)} : Matches (.gone outcome) none

namespace Matches

variable {entry : JobEntry α} {o : Option (JobEntry α)}

theorem eq_none_of_unknown (h : Matches .unknown o) : o = none := by
  cases h
  rfl

theorem eq_none_of_gone {outcome : Except (BackendError α) (ExecutionResult α)}
    (h : Matches (.gone outcome) o) : o = none := by
  cases h
  rfl

theorem exists_of_running (h : Matches .running o) :
    ∃ entry, o = some entry ∧ entry.Shows none := by
  cases h with
  | running hshows => exact ⟨_, rfl, hshows⟩

theorem exists_of_ended {outcome : Except (BackendError α) (ExecutionResult α)}
    (h : Matches (.ended outcome) o) : ∃ entry, o = some entry ∧ entry.Shows (some outcome) := by
  cases h with
  | ended hshows => exact ⟨_, rfl, hshows⟩

theorem exists_shows {p : Phase α} (h : p.Matches (some entry)) : ∃ o, entry.Shows o := by
  cases h with
  | running hshows => exact ⟨_, hshows⟩
  | ended hshows => exact ⟨_, hshows⟩

end Matches

def isGone : Phase α → Bool
  | gone _ => true
  | _ => false

/-- What the calls so far tell of a job. -/
structure Follows (p : Phase α) (id : JobId) (events : List (Event α)) : Prop where
  started : .started id ∈ events ↔ p ≠ .unknown
  finished : ∀ o, .finished id o ∈ events ↔ p = .ended o ∨ p = .gone o
  delivered : ∀ a, .delivered id a ∈ events ↔ ∃ o, p = .gone o ∧ a = handed o
  count : events.countP (·.delivers id) = p.isGone.toNat

namespace Follows

variable {id : JobId} {events : List (Event α)} {p : Phase α}

theorem nil : Follows (α := α) .unknown id [] := by
  refine ⟨?_, fun o => ?_, fun a => ?_, rfl⟩ <;> simp

theorem eq_unknown (h : p.Follows id events) (fresh : .started id ∉ events) : p = .unknown := by
  by_contra hne
  exact fresh (h.started.mpr hne)

theorem eq_running (h : p.Follows id events) (started : .started id ∈ events)
    (unfinished : ∀ o, .finished id o ∉ events) : p = .running := by
  cases p with
  | unknown => exact absurd rfl (h.started.mp started)
  | running => rfl
  | ended o => exact absurd ((h.finished o).mpr (.inl rfl)) (unfinished o)
  | gone o => exact absurd ((h.finished o).mpr (.inr rfl)) (unfinished o)

theorem other (h : p.Follows id events) {e : Event α} (he : ¬ e.Concerns id) :
    p.Follows id (e :: events) := by
  obtain ⟨hstarted, hfinished, hdelivered, hcount⟩ := h
  cases e <;> refine ⟨?_, fun o => ?_, fun a => ?_, ?_⟩ <;>
    simp_all [Event.Concerns, Event.delivers, eq_comm]

theorem start (h : Follows .unknown id events) : Follows .running id (.started id :: events) := by
  obtain ⟨hstarted, hfinished, hdelivered, hcount⟩ := h
  refine ⟨?_, fun o => ?_, fun a => ?_, ?_⟩ <;> simp_all [Event.delivers, isGone]

theorem finish (h : Follows .running id events)
    (outcome : Except (BackendError α) (ExecutionResult α)) :
    Follows (.ended outcome) id (.finished id outcome :: events) := by
  obtain ⟨hstarted, hfinished, hdelivered, hcount⟩ := h
  refine ⟨?_, fun o => ?_, fun a => ?_, ?_⟩ <;> simp_all [Event.delivers, isGone, eq_comm]

theorem deliver {outcome : Except (BackendError α) (ExecutionResult α)}
    (h : Follows (.ended outcome) id events) :
    Follows (.gone outcome) id (.delivered id (handed outcome) :: events) := by
  obtain ⟨hstarted, hfinished, hdelivered, hcount⟩ := h
  refine ⟨?_, fun o => ?_, fun a => ?_, ?_⟩ <;> simp_all [Event.delivers, isGone, eq_comm]

end Follows

end Phase

namespace Run

variable {events : List (Event α)} {s : JobStore α}

/-- A call on one job leaves the other jobs where they are. -/
theorem exists_phase_ite (e : Event α) {job : JobId} {o : Option (JobEntry α)}
    (h : ∀ id, ∃ p : Phase α, p.Follows id events ∧ p.Matches (s.find? id))
    (he : ∀ id, e.Concerns id → id = job)
    (hjob : ∃ p : Phase α, p.Follows job (e :: events) ∧ p.Matches o) (id : JobId) :
    ∃ p : Phase α, p.Follows id (e :: events) ∧
      p.Matches (if id = job then o else s.find? id) := by
  by_cases hid : id = job
  · subst hid
    rw [if_pos rfl]
    exact hjob
  · obtain ⟨p, hp, hm⟩ := h id
    rw [if_neg hid]
    exact ⟨p, hp.other fun hconcerns => hid (he id hconcerns), hm⟩

/-- Every job is where the calls have brought it. -/
theorem exists_phase (h : Run events s) (id : JobId) :
    ∃ p : Phase α, p.Follows id events ∧ p.Matches (s.find? id) := by
  induction h generalizing id with
  | empty => exact ⟨.unknown, .nil, .unknown⟩
  | @start events s job _ queued fresh now ih =>
    obtain ⟨p, hp, hm⟩ := ih job.id
    obtain rfl := hp.eq_unknown fresh
    have hrunning : (job.transition .running now).status = .running := by
      rw [Job.transition, queued]
      rfl
    rw [JobStore.find?_start hm.eq_none_of_unknown]
    exact exists_phase_ite (.started job.id) ih (fun _ => Eq.symm)
      ⟨_, hp.start, .running (.running hrunning)⟩ id
  | @finish events s job _ started unfinished outcome now ih =>
    obtain ⟨p, hp, hm⟩ := ih job
    obtain rfl := hp.eq_running started unfinished
    obtain ⟨entry, hentry, hshows⟩ := hm.exists_of_running
    obtain ⟨ended, hended, hfind⟩ := JobStore.find?_finish hentry hshows outcome now
    rw [hfind]
    exact exists_phase_ite (.finished job outcome) ih (fun _ => Eq.symm)
      ⟨_, hp.finish outcome, .ended hended⟩ id
  | status _ other ih =>
    obtain ⟨p, hp, hm⟩ := ih id
    exact ⟨p, hp.other not_false, hm⟩
  | refuse _ waiting ih =>
    obtain ⟨p, hp, hm⟩ := ih id
    rw [JobStore.take_of_waiting waiting]
    exact ⟨p, hp.other not_false, hm⟩
  | @deliver events s job entry _ found ended ih =>
    obtain ⟨p, hp, hm⟩ := ih job
    rw [found] at hm
    rw [JobStore.take_of_ended found ended, JobStore.find?_filter]
    cases hm with
    | running hshows =>
      rw [hshows.status_eq] at ended
      cases ended
    | ended hshows =>
      rw [hshows.outcome_eq]
      exact exists_phase_ite (.delivered job _) ih (fun _ => Eq.symm) ⟨_, hp.deliver, .gone⟩ id

theorem nodup (h : Run events s) : (s.entries.map (·.1)).Nodup := by
  induction h with
  | empty => exact .nil
  | @start events s job h _ fresh now ih =>
    obtain ⟨p, hp, hm⟩ := h.exists_phase job.id
    obtain rfl := hp.eq_unknown fresh
    exact JobStore.nodup_start ih hm.eq_none_of_unknown now
  | finish _ _ _ outcome now ih =>
    rw [JobStore.finish, JobStore.names_update]
    exact ih
  | status _ _ ih => exact ih
  | refuse _ waiting ih =>
    rw [JobStore.take_of_waiting waiting]
    exact ih
  | deliver _ found ended ih =>
    rw [JobStore.take_of_ended found ended]
    exact ih.sublist (List.filter_sublist.map _)

/-- A fetch is refused or delivers. -/
theorem exists_take (h : Run events s) (id : JobId) :
    ∃ e, (e = .refused id (s.take id).2 ∨ e = .delivered id (s.take id).2) ∧
      Run (e :: events) (s.take id).1 := by
  by_cases hwaiting : ∀ entry, s.find? id = some entry → entry.job.status.isTerminal = false
  · exact ⟨_, .inl rfl, h.refuse hwaiting⟩
  · push Not at hwaiting
    obtain ⟨entry, hfound, hended⟩ := hwaiting
    exact ⟨_, .inr rfl, h.deliver hfound (by simpa using hended)⟩

end Run

/-! ## Delivery -/

/-- What holds after any calls: entries are in one of three stages, and every outcome is handed out
at most once, to a fetch that finds it, after which the job is not known any more. -/
structure Delivers (events : List (Event α)) (s : JobStore α) : Prop where
  staged : ∀ entry ∈ s.entries, entry.2.Staged
  settled : ∀ id entry, s.find? id = some entry → entry.job.status.isTerminal = true →
    (∃ r, entry.job.status = .completed ∧ entry.result = some r ∧ (s.take id).2 = .ok r) ∨
      ∃ reason, entry.job.status = .failed reason ∧ (s.take id).2 = .error (.jobFailed reason)
  waits : ∀ id entry, s.find? id = some entry → entry.job.status = .running →
    s.take id = (s, .error (JobStore.noResult id .running))
  finds : ∀ id, .started id ∈ events → (∀ o, .finished id o ∉ events) →
    ∃ entry, s.find? id = some entry ∧ entry.job.status = .running
  keeps : ∀ id o, .finished id o ∈ events → (∀ a, .delivered id a ∉ events) →
    (s.take id).2 = handed o
  once : ∀ id, events.countP (·.delivers id) ≤ 1
  own : ∀ id a, .delivered id a ∈ events → ∃ o, .finished id o ∈ events ∧ a = handed o ∧
    ∀ o', .finished id o' ∈ events → o' = o
  gone : ∀ id a, .delivered id a ∈ events → s.status id = .error (.jobNotFound id.text) ∧
    s.take id = (s, .error (.jobNotFound id.text))

theorem Run.outcomes_delivered {events : List (Event α)} {s : JobStore α} (h : Run events s) :
    Delivers events s where
  staged := fun entry he => by
    obtain ⟨p, -, hm⟩ := h.exists_phase ⟨entry.1⟩
    have hfound : s.find? ⟨entry.1⟩ = some entry.2 := lookup_eq_some_of_mem h.nodup he
    rw [hfound] at hm
    obtain ⟨o, hshows⟩ := hm.exists_shows
    exact hshows.staged
  settled := fun id entry hfound hended => by
    obtain ⟨p, -, hm⟩ := h.exists_phase id
    rw [hfound] at hm
    obtain ⟨o, hshows⟩ := hm.exists_shows
    rw [JobStore.take_of_ended hfound hended]
    cases hshows with
    | running hrunning =>
      rw [hrunning] at hended
      cases hended
    | completed hcompleted =>
      exact .inl ⟨_, hcompleted, rfl, (JobEntry.Shows.completed hcompleted).outcome_eq id⟩
    | failed hfailed =>
      exact .inr ⟨_, hfailed, (JobEntry.Shows.failed hfailed).outcome_eq id⟩
  waits := fun id entry hfound hrunning => JobStore.take_of_running hfound hrunning
  finds := fun id started unfinished => by
    obtain ⟨p, hp, hm⟩ := h.exists_phase id
    obtain rfl := hp.eq_running started unfinished
    obtain ⟨entry, hfound, hshows⟩ := hm.exists_of_running
    exact ⟨entry, hfound, hshows.status_eq⟩
  keeps := fun id o finished undelivered => by
    obtain ⟨p, hp, hm⟩ := h.exists_phase id
    obtain rfl : p = .ended o := by
      rcases (hp.finished o).mp finished with hended | hgone
      · exact hended
      · exact absurd ((hp.delivered _).mpr ⟨o, hgone, rfl⟩) (undelivered _)
    obtain ⟨entry, hfound, hshows⟩ := hm.exists_of_ended
    rw [JobStore.take_of_ended hfound hshows.isTerminal]
    exact hshows.outcome_eq id
  once := fun id => by
    obtain ⟨p, hp, -⟩ := h.exists_phase id
    rw [hp.count]
    exact Bool.toNat_le _
  own := fun id a delivered => by
    obtain ⟨p, hp, -⟩ := h.exists_phase id
    obtain ⟨o, rfl, ha⟩ := (hp.delivered a).mp delivered
    refine ⟨o, (hp.finished o).mpr (.inr rfl), ha, fun o' finished => ?_⟩
    rcases (hp.finished o').mp finished with hended | hgone
    · cases hended
    · exact (Phase.gone.inj hgone).symm
  gone := fun id a delivered => by
    obtain ⟨p, hp, hm⟩ := h.exists_phase id
    obtain ⟨o, rfl, -⟩ := (hp.delivered a).mp delivered
    have hmissing := hm.eq_none_of_gone
    exact ⟨by rw [JobStore.status, hmissing], JobStore.take_of_missing hmissing⟩

/-! ## Submissions -/

namespace Backend

variable [Scalar α] [DecimalText α] [BEq α]

theorem jobs_prepare (b : Backend α) (ticket : ℕ) (c : Circuit α) :
    (b.prepare ticket c).1.jobs = b.jobs := by
  obtain ⟨e, -, hb⟩ | ⟨p, -, -, hb⟩ | ⟨k, -, -, hb⟩ := b.prepare_cases ticket c
  · rw [hb]
  · rw [hb]
  · rw [hb, store]
    split <;> rfl

/-- A submission that is not refused enters its job and then the outcome of its run. -/
theorem exists_run_submit {b : Backend α} {events : List (Event α)} (h : Run events b.jobs)
    {o : Occasion} (fresh : .started o.jobId ∉ events) (c : Circuit α) (mode : RunMode α) :
    (∃ e, (b.submit o c mode).2 = .error e ∧ (b.submit o c mode).1.jobs = b.jobs) ∨
      (b.submit o c mode).2 = .ok o.jobId ∧ ∃ p, (b.prepare o.ticket c).2 = .ok p ∧
        Run (.finished o.jobId ((b.prepare o.ticket c).1.run o p mode) ::
          .started o.jobId :: events) (b.submit o c mode).1.jobs := by
  have hjobs := b.jobs_prepare o.ticket c
  unfold submit
  rcases hb : b.prepare o.ticket c with ⟨b', e | p⟩
  · rw [hb] at hjobs
    exact .inl ⟨e, rfl, hjobs⟩
  · rw [hb] at hjobs
    cases hshots : b'.checkShots mode with
    | error e =>
      simp only [hshots]
      exact .inl ⟨e, rfl, hjobs⟩
    | ok u =>
      simp only [hshots]
      rw [hjobs]
      have hqueued : ({ Job.new o.jobId mode.label o.now with backend := some b'.name } :
        Job).status = .queued := rfl
      have hstart := h.start hqueued fresh o.now
      have hunfinished : ∀ r, .finished o.jobId r ∉ .started o.jobId :: events := by
        intro r hr
        obtain ⟨phase, hp, -⟩ := h.exists_phase o.jobId
        obtain rfl := hp.eq_unknown fresh
        rcases List.mem_cons.mp hr with hr | hr
        · cases hr
        · rcases (hp.finished r).mp hr with hr | hr <;> cases hr
      exact .inr ⟨trivial, p, rfl, hstart.finish List.mem_cons_self hunfinished _ o.now⟩

end Backend

/-! ## Calls on a backend -/

/-- After any calls the outcomes are delivered, each at most once. The calls are those of the
backends that keep the store: a fetch is refused or delivers, and a submission of a job with a new
id, unless it is refused, enters the job and then the outcome of its run. -/
theorem Run.delivers [Scalar α] [DecimalText α] [BEq α] {events : List (Event α)}
    {s : JobStore α} (h : Run events s) :
    Delivers events s ∧
    (∀ id, ∃ e, (e = .refused id (s.take id).2 ∨ e = .delivered id (s.take id).2) ∧
      Run (e :: events) (s.take id).1) ∧
    ∀ b : Backend α, b.jobs = s → ∀ o : Occasion, .started o.jobId ∉ events → ∀ c mode,
      (∃ e, (b.submit o c mode).2 = .error e ∧ (b.submit o c mode).1.jobs = s) ∨
        (b.submit o c mode).2 = .ok o.jobId ∧ ∃ p, (b.prepare o.ticket c).2 = .ok p ∧
          Run (.finished o.jobId ((b.prepare o.ticket c).1.run o p mode) ::
            .started o.jobId :: events) (b.submit o c mode).1.jobs := by
  refine ⟨h.outcomes_delivered, h.exists_take, ?_⟩
  rintro b rfl o fresh c mode
  exact Backend.exists_run_submit h fresh c mode

/-- A job that is fetched too early, and again after it has ended. -/
theorem Run.delivers_job :
    let now : Timestamp := ⟨2024, 1, 1, 0, 0, 0, 0⟩
    let job := Job.new ⟨"job"⟩ "expectation" now
    let r : ExecutionResult Float := ⟨.expectation 1.0, ⟨"qulacs", 1, none, none⟩⟩
    let early : BackendError Float := JobStore.noResult job.id .running
    ∃ s : JobStore Float,
      Run [.delivered job.id (.ok r), .finished job.id (.ok r), .refused job.id (.error early),
        .started job.id] s ∧ s.status job.id = .error (.jobNotFound "job") := by
  intro now job r early
  have hqueued : job.status = .queued := rfl
  have hstart : Run [.started job.id] (JobStore.empty.start job now : JobStore Float) :=
    Run.empty.start hqueued List.not_mem_nil now
  have hwaiting : ∀ entry, (JobStore.empty.start job now : JobStore Float).find? job.id =
      some entry → entry.job.status.isTerminal = false := by
    intro entry he
    obtain rfl := Option.some.inj he
    rfl
  have hrefuse : Run [.refused job.id (.error early), .started job.id]
      (JobStore.empty.start job now : JobStore Float) := hstart.refuse hwaiting
  have hfinish : Run [.finished job.id (.ok r), .refused job.id (.error early), .started job.id]
      ((JobStore.empty.start job now : JobStore Float).finish job.id (.ok r) now) :=
    hrefuse.finish (.tail _ List.mem_cons_self) (by simp) (.ok r) now
  have hfound : ((JobStore.empty.start job now : JobStore Float).finish job.id (.ok r) now).find?
      job.id = some ⟨(job.transition .running now).transition .completed now, some r⟩ := rfl
  have hdeliver := hfinish.deliver hfound rfl
  obtain ⟨hdelivers, -, -⟩ := hdeliver.delivers
  exact ⟨_, hdeliver, (hdelivers.gone job.id (.ok r) List.mem_cons_self).1⟩

end KetSim

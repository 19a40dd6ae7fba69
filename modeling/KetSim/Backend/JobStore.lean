import KetSim.Backend.Error
import KetSim.Backend.Job
import KetSim.Backend.Result

/-! # Job stores

The jobs whose outcome has not been fetched yet. Fetching the outcome of a job
that has ended forgets the job.
-/
namespace KetSim

structure JobEntry (α : Type) where
  job : Job
  result : Option (ExecutionResult α)

structure JobStore (α : Type) where
  entries : List (String × JobEntry α)

namespace JobStore

variable {α : Type}

def empty : JobStore α := ⟨[]⟩

def size (s : JobStore α) : Nat := s.entries.length

def find? (s : JobStore α) (id : JobId) : Option (JobEntry α) := s.entries.lookup id.text

def update (s : JobStore α) (id : JobId) (f : JobEntry α → JobEntry α) : JobStore α :=
  ⟨s.entries.map fun (name, entry) => if name = id.text then (name, f entry) else (name, entry)⟩

theorem find?_update (s : JobStore α) (id other : JobId) (f : JobEntry α → JobEntry α) :
    (s.update id f).find? other = if other = id then (s.find? id).map f else s.find? other := by
  rcases s with ⟨entries⟩
  rcases id with ⟨id⟩
  rcases other with ⟨other⟩
  simp only [find?, update, JobId.mk.injEq]
  induction entries with
  | nil => simp
  | cons head rest ih =>
    obtain ⟨name, entry⟩ := head
    by_cases ho : other = name
    · subst ho
      by_cases hid : other = id <;> simp_all
    · have hother : (other == name) = false := beq_false_of_ne ho
      by_cases hid : name = id
      · subst hid
        simpa [List.lookup_cons, hother, ho] using ih
      · have hname : (id == name) = false := beq_false_of_ne (Ne.symm hid)
        simpa [List.lookup_cons, hother, hname, hid] using ih

/-- Sets a job running, entering it first unless its id is taken. -/
def start (s : JobStore α) (job : Job) (now : Timestamp) : JobStore α :=
  let s := if (s.find? job.id).isSome then s else ⟨s.entries ++ [(job.id.text, ⟨job, none⟩)]⟩
  s.update job.id fun entry => { entry with job := entry.job.transition .running now }

def finish (s : JobStore α) (id : JobId) (outcome : Except (BackendError α) (ExecutionResult α))
    (now : Timestamp) : JobStore α :=
  s.update id fun entry =>
    match outcome with
    | .ok result => ⟨entry.job.transition .completed now, some result⟩
    | .error e => { entry with job := entry.job.transition (.failed e.message) now }

def status (s : JobStore α) (id : JobId) : Except (BackendError α) JobStatus :=
  match s.find? id with
  | some entry => .ok entry.job.status
  | none => .error (.jobNotFound id.text)

def noResult (id : JobId) (status : JobStatus) : BackendError α :=
  .jobFailed ("Job " ++ id.text ++ " has no result (" ++ status.text ++ ")")

def outcome (id : JobId) (entry : JobEntry α) : Except (BackendError α) (ExecutionResult α) :=
  match entry.job.status, entry.result with
  | .completed, some result => .ok result
  | .failed reason, _ => .error (.jobFailed reason)
  | status, _ => .error (noResult id status)

/-- Hands out the outcome of a job and forgets it; a job that has not ended stays. -/
def take (s : JobStore α) (id : JobId) :
    JobStore α × Except (BackendError α) (ExecutionResult α) :=
  match s.find? id with
  | none => (s, .error (.jobNotFound id.text))
  | some entry =>
    if entry.job.status.isTerminal then
      (⟨s.entries.filter (·.1 ≠ id.text)⟩, outcome id entry)
    else (s, .error (noResult id entry.job.status))

end JobStore

end KetSim

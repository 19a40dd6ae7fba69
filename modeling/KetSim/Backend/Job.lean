import KetSim.Timestamp

/-! # Jobs

A job is queued, runs, and ends in success or failure. A job that has ended
never changes again.
-/
namespace KetSim

inductive JobStatus where
  | queued
  | running
  | completed
  | failed (reason : String)
  deriving DecidableEq, Repr

namespace JobStatus

def isTerminal : JobStatus → Bool
  | queued | running => false
  | completed | failed _ => true

def isSuccess : JobStatus → Bool
  | completed => true
  | _ => false

def text : JobStatus → String
  | queued => "Queued"
  | running => "Running"
  | completed => "Completed"
  | failed reason => "Failed: " ++ reason

end JobStatus

structure JobId where
  text : String
  deriving DecidableEq, Repr

structure Job where
  id : JobId
  status : JobStatus
  mode : String
  createdAt : Timestamp
  startedAt : Option Timestamp
  finishedAt : Option Timestamp
  backend : Option String
  deriving DecidableEq, Repr

namespace Job

def new (id : JobId) (mode : String) (now : Timestamp) : Job :=
  ⟨id, .queued, mode, now, none, none, none⟩

/-- Moves a job that has not ended to a status, stamping its first start and its end. -/
def transition (j : Job) (status : JobStatus) (now : Timestamp) : Job :=
  if j.status.isTerminal then j
  else
    { j with
      status := status
      startedAt := if status = .running then j.startedAt <|> some now else j.startedAt
      finishedAt := if status.isTerminal then j.finishedAt <|> some now else j.finishedAt }

theorem transition_of_isTerminal {j : Job} (h : j.status.isTerminal) (status : JobStatus)
    (now : Timestamp) : j.transition status now = j := by
  simp [transition, h]

end Job

end KetSim

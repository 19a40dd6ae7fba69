import KetSim.Backend.Cache
import KetSim.Backend.Capabilities
import KetSim.Backend.Config
import KetSim.Backend.JobStore
import KetSim.Backend.RunMode

/-! # Backends

A backend holds its settings, the circuits it has prepared and the jobs it has
run. Its name tells the device when the name is a reserved one.
-/
namespace KetSim

structure Backend (α : Type) where
  name : String
  settings : Settings
  capabilities : Capabilities
  cache : Cache α
  jobs : JobStore α

namespace Backend

variable {α : Type}

def nameOf : Engine.Device → String
  | .cpu => "qulacs"
  | .gpu => "qulacs-gpu"

def reservedNames : List String := [nameOf .cpu, nameOf .gpu]

def build (name : String) (s : Settings) : Backend α :=
  ⟨name, s, s.capabilities name, .empty, .empty⟩

/-- Settings that no backend can honour. -/
def check (s : Settings) : Except (BackendError α) Unit :=
  if s.maxQubits = 0 then .error (.configuration "max_qubits must be at least 1") else .ok ()

def named (name : String) (s : Settings) : Except (BackendError α) (Backend α) := do
  check s
  .ok (build name s)

def ofSettings (s : Settings) : Except (BackendError α) (Backend α) := named (nameOf s.device) s

def new : Backend α := build (nameOf .cpu) {}

def gpu : Except (BackendError α) (Backend α) := ofSettings { device := .gpu }

/-- A reserved name gives way to the name of the device; other names are kept. -/
def ofConfig (c : BackendConfig) : Except (BackendError α) (Backend α) := do
  let s ← c.settings
  if reservedNames.contains c.name then ofSettings s else named c.name s

def cachedCircuits (b : Backend α) : Nat := b.cache.size

def pendingJobs (b : Backend α) : Nat := b.jobs.size

def clearCache (b : Backend α) : Backend α := { b with cache := .empty }

end Backend

end KetSim

import KetSim.Backend.Basic

/-! # Preparing circuits

A circuit is compiled once and kept. Preparation consists of a look into the
cache, a compilation on a miss, and a store into the cache.
-/
namespace KetSim.Backend

variable {α : Type}

def checkSize (b : Backend α) (c : Circuit α) : Except (BackendError α) Unit :=
  if b.settings.maxQubits < c.numQubits then
    .error (.incompatibleCircuit (s!"Circuit has {c.numQubits} qubits but " ++ b.name ++
      s!" supports at most {b.settings.maxQubits}"))
  else .ok ()

def lookup? [BEq α] (b : Backend α) (key : CircuitKey) (c : Circuit α) : Option (Prepared α) :=
  if b.settings.caching then b.cache.get? key c else none

def compile [Scalar α] [DecimalText α] (b : Backend α) (ticket : Nat) (key : CircuitKey)
    (c : Circuit α) : Except (BackendError α) (Prepared α) := do
  let compiled ← c.compile.mapError BackendError.ofLowering
  .ok ⟨key, b.name, c, .compiled compiled, ticket⟩

/-- Keeps a preparation, and returns the one to hand out. -/
def store [BEq α] (b : Backend α) (p : Prepared α) : Backend α × Prepared α :=
  if b.settings.caching then
    let (cache, p) := b.cache.insert b.settings.cacheCapacity p
    ({ b with cache := cache }, p)
  else (b, p)

/-- Prepares a circuit; `ticket` marks a preparation that is made on the way. -/
def prepare [Scalar α] [DecimalText α] [BEq α] (b : Backend α) (ticket : Nat) (c : Circuit α) :
    Backend α × Except (BackendError α) (Prepared α) :=
  match b.checkSize c with
  | .error e => (b, .error e)
  | .ok () =>
    let key := CircuitKey.of c
    match b.lookup? key c with
    | some p => (b, .ok p)
    | none =>
      match b.compile ticket key c with
      | .error e => (b, .error e)
      | .ok p =>
        let (b, p) := b.store p
        (b, .ok p)

end KetSim.Backend

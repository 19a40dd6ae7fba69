import KetSim.Backend.Basic

/-! # Registries

Ways of building a backend, by name. A name that is registered again loses its
earlier meaning.
-/
namespace KetSim

abbrev BackendFactory (α : Type) := BackendConfig → Except (BackendError α) (Backend α)

/-- Factories by ascending name. -/
structure Registry (α : Type) where
  factories : List (String × BackendFactory α)

namespace Registry

variable {α : Type}

def empty : Registry α := ⟨[]⟩

def put (name : String) (factory : BackendFactory α) :
    List (String × BackendFactory α) → List (String × BackendFactory α)
  | [] => [(name, factory)]
  | (n, f) :: rest =>
    if name = n then (name, factory) :: rest
    else if name < n then (name, factory) :: (n, f) :: rest
    else (n, f) :: put name factory rest

theorem lookup_put (name other : String) (factory : BackendFactory α)
    (factories : List (String × BackendFactory α)) :
    (put name factory factories).lookup other =
      if other = name then some factory else factories.lookup other := by
  induction factories with
  | nil => grind [put]
  | cons head rest ih => grind [put]

def register (r : Registry α) (name : String) (factory : BackendFactory α) : Registry α :=
  ⟨put name factory r.factories⟩

def available (r : Registry α) : List String := r.factories.map (·.1)

def has (r : Registry α) (name : String) : Bool := (r.factories.lookup name).isSome

def create (r : Registry α) (name : String) (config : BackendConfig) :
    Except (BackendError α) (Backend α) :=
  match r.factories.lookup name with
  | some factory => factory config
  | none => .error (.unavailable ("No backend registered with name '" ++ name ++ "'"))

/-- Builds a backend on the data-parallel kernels, refusing any other device. -/
def gpuFactory : BackendFactory α := fun config =>
  let build := Backend.ofConfig (config.withExtra "device" (.str "gpu"))
  match config.extra? "device" with
  | none | some (.str "gpu") => build
  | some device =>
    .error (.configuration ("'" ++ Backend.nameOf .gpu ++ "' runs on device \"gpu\", not " ++ device.text))

def registerBackends (r : Registry α) : Registry α :=
  (r.register (Backend.nameOf .cpu) Backend.ofConfig).register (Backend.nameOf .gpu) gpuFactory

end Registry

end KetSim

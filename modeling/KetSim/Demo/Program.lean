import KetSim.Backend.Registry
import KetSim.Circuit.Entangled
import KetSim.Decimal.Rounded
import KetSim.Demo.Arguments
import KetSim.Demo.Hydrogen

/-! # Demo program

Small circuits on a backend of choice: a sampled Bell pair and an energy scan of
the hydrogen molecule. A run yields what it prints and its exit code.
-/
namespace KetSim.Demo

structure Output where
  code : UInt32
  stdout : String
  stderr : String

/-- What is printed before a failure, if there is one, and its messages, outermost first. -/
structure Report where
  text : String
  failure : Option (List String) := none

/-! ## Layout -/

def line (s : String) : String := s ++ "\n"

def rule (c : Char) (n : Nat) : String := String.ofList (List.replicate n c)

def header (title : String) : String :=
  line "" ++ line (rule '=' 60) ++ line ("  " ++ title) ++ line (rule '=' 60)

def heading (title : String) : String := line "" ++ line ("> " ++ title) ++ line (rule '-' 40)

def entry (label value : String) : String := line ("  " ++ label ++ ": " ++ value)

/-- Text behind a label; further lines of the text start where the first one does. -/
def hanging (label text : String) : String :=
  label ++ text.replace "\n" ("\n" ++ rule ' ' label.length)

/-- The causes of a failure, numbered if there are several. -/
def causeLines : List String → List String
  | [cause] => [hanging "    " cause]
  | causes => causes.zipIdx.map fun (cause, i) => hanging s!"    {i}: " cause

/-- A failure with its causes. -/
def failureText : List String → String
  | [] => ""
  | [top] => line ("Error: " ++ top)
  | top :: causes =>
    line ("Error: " ++ top ++ "\n\nCaused by:\n" ++ "\n".intercalate (causeLines causes))

def messages : BackendError Float → List String
  | .execution activity cause => [(BackendError.execution activity cause).message, cause.message]
  | e => [e.message]

def scanMessages : Hydrogen.ScanError → List String
  | .circuit e => [e.message]
  | .backend e => messages e

/-! ## Commands -/

def bell (b : Backend Float) (o : Occasion) (shots : Nat) (seed : Option UInt64) : Report :=
  let title := header "Bell pair sampling"
  match (Circuit.bell : Except CircuitError (Circuit Float)) with
  | .error e => ⟨title, some [e.message]⟩
  | .ok c =>
    match (b.process o c (.shots shots seed)).2 with
    | .error e => ⟨title, some (messages e)⟩
    | .ok r =>
      match r.counts? with
      | none => ⟨title, some ["backend returned no shots"]⟩
      | some counts =>
        let used := match r.metadata.seed with
          | some n => entry "Seed" (toString n.toNat)
          | none => ""
        let rows := counts.entries.map fun (outcome, n) => entry outcome (toString n)
        ⟨title ++ heading "Setup" ++ entry "Backend" b.name ++ entry "Shots" (toString shots) ++
          used ++ heading "Counts" ++ String.join rows, none⟩

def pointLine (p : Hydrogen.EnergyPoint) : String :=
  line ("  theta = " ++ Decimal.fixed true 4 p.theta ++ "  E = " ++ Decimal.fixed false 8 p.energy ++
    " Ha")

def energyReport (b : Backend Float) (points : List Hydrogen.EnergyPoint)
    (best : Hydrogen.EnergyPoint) : String :=
  heading "Setup" ++ entry "Backend" b.name ++ entry "Scan points" (toString points.length) ++
    heading "Energies" ++ String.join (points.map pointLine) ++
    heading "Result" ++ entry "Best theta" (Decimal.fixed true 6 best.theta) ++
    entry "Best energy" (Decimal.fixed false 10 best.energy ++ " Ha") ++
    entry "Optimal theta" (Decimal.fixed true 6 Hydrogen.optimalTheta) ++
    entry "Exact energy" (Decimal.fixed false 10 Hydrogen.groundEnergy ++ " Ha") ++
    entry "Error"
      (Decimal.exponential 2 (best.energy - Hydrogen.groundEnergy).abs ++ " Ha")

def hydrogen (b : Backend Float) (o : Occasion) (steps : Nat) : Report :=
  let title := header "H2 ground-state energy scan"
  match (Hydrogen.scan b o (-0.5) 0.5 steps).2 with
  | .error e => ⟨title, some (scanMessages e)⟩
  | .ok points =>
    match Hydrogen.minimum? points with
    | none => ⟨title, some ["empty scan"]⟩
    | some best => ⟨title ++ energyReport b points best, none⟩

def backends (r : Registry Float) : Report :=
  ⟨header "Registered backends" ++ String.join (r.available.map fun name => line ("  " ++ name)), none⟩

def createBackend (r : Registry Float) (a : Arguments) :
    Except (BackendError Float) (Backend Float) :=
  let config := (BackendConfig.new a.backend).withExtra "result_type" (.str a.resultType)
  let config := match a.device with
    | some device => config.withExtra "device" (.str device)
    | none => config
  r.create a.backend config

def report (a : Arguments) (o : Occasion) : Report :=
  let registry := Registry.empty.registerBackends
  match a.command with
  | .backends => backends registry
  | command =>
    match createBackend registry a with
    | .error e => ⟨"", some (("creating backend '" ++ a.backend ++ "'") :: messages e)⟩
    | .ok b =>
      match command with
      | .bell shots seed => bell b o shots seed
      | .hydrogen steps => hydrogen b o steps
      | .backends => backends registry

def run (args : List String) (device : Option String) (o : Occasion) : Output :=
  match Arguments.parse? args device with
  | none => ⟨2, "", line "error: the arguments are not understood"⟩
  | some a =>
    let r := report a o
    match r.failure with
    | none => ⟨0, r.text, ""⟩
    | some causes => ⟨1, r.text, failureText causes⟩

end KetSim.Demo

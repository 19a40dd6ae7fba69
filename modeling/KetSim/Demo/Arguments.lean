import KetSim.Power

/-! # Command line arguments

Options of the whole program stand before or after the name of a command. The
value of an option is the next argument, or follows an equals sign, or follows a
one-letter name directly. A bare double dash ends the options, and nothing may
follow it.
-/
namespace KetSim.Demo

inductive Command where
  | bell (shots : Nat) (seed : Option UInt64)
  | hydrogen (steps : Nat)
  | backends
  deriving Repr

structure Arguments where
  backend : String
  device : Option String
  resultType : String
  command : Command
  deriving Repr

structure Progress where
  backend : Option String := none
  device : Option String := none
  resultType : Option String := none
  verbose : Nat := 0
  command : Option Command := none

namespace Progress

def withBackend (p : Progress) (value : String) : Option Progress :=
  some { p with backend := some value }

def withDevice (p : Progress) (value : String) : Option Progress :=
  some { p with device := some value }

def withResultType (p : Progress) (value : String) : Option Progress :=
  some { p with resultType := some value }

/-- A natural number below `limit`: digits after an optional plus sign. -/
def number? (limit : Nat) (s : String) : Option Nat := do
  let digits := match s.toList with
    | '+' :: rest => rest
    | cs => cs
  if digits.isEmpty || !digits.all Char.isDigit then none
  let n := digits.foldl (fun n c => 10 * n + (c.toNat - '0'.toNat)) 0
  if n < limit then some n else none

def withShots (p : Progress) (value : String) : Option Progress :=
  match p.command with
  | some (.bell _ seed) => do some { p with command := some (.bell (← number? (2 ^ 64) value) seed) }
  | _ => none

def withSeed (p : Progress) (value : String) : Option Progress :=
  match p.command with
  | some (.bell shots _) => do
    some { p with command := some (.bell shots (some (← number? (2 ^ 64) value).toUInt64)) }
  | _ => none

def withSteps (p : Progress) (value : String) : Option Progress :=
  match p.command with
  | some (.hydrogen _) => do some { p with command := some (.hydrogen (← number? (2 ^ 64) value)) }
  | _ => none

def withCommand (p : Progress) (name : String) : Option Progress :=
  match p.command, name with
  | none, "bell" => some { p with command := some (.bell 1000 none) }
  | none, "h2" => some { p with command := some (.hydrogen 21) }
  | none, "backends" => some { p with command := some .backends }
  | _, _ => none

/-- The options of more than one letter that take a value. -/
def long? (p : Progress) : String → Option (String → Option Progress)
  | "backend" => some p.withBackend
  | "device" => some p.withDevice
  | "result-type" => some p.withResultType
  | "shots" => some p.withShots
  | "seed" => some p.withSeed
  | "steps" => some p.withSteps
  | _ => none

/-- The options of one letter that take a value; one of them depends on the command. -/
def short? (p : Progress) : Char → Option (String → Option Progress)
  | 'b' => some p.withBackend
  | 's' =>
    match p.command with
    | some (.bell _ _) => some p.withShots
    | some (.hydrogen _) => some p.withSteps
    | _ => none
  | _ => none

/-- A value in the same argument, with or without an equals sign. -/
def attached (cs : List Char) : String :=
  match cs with
  | '=' :: rest => String.ofList rest
  | cs => String.ofList cs

/-- What an argument leaves to do: nothing, or to take the next argument as a value. -/
inductive Next where
  | done (p : Progress)
  | value (take : String → Option Progress)

/-- One-letter options in one argument; the last one may take a value. -/
def letters (p : Progress) : List Char → Option Next
  | [] => some (.done p)
  | 'v' :: rest => letters { p with verbose := p.verbose + 1 } rest
  | c :: rest => do
    let take ← p.short? c
    if rest.isEmpty then some (.value take) else (take (attached rest)).map .done

def longOption (p : Progress) (cs : List Char) : Option Next := do
  let name := String.ofList (cs.takeWhile (· != '='))
  if name = "verbose" && cs.length = 7 then some (.done { p with verbose := p.verbose + 1 })
  else
    let take ← p.long? name
    match cs.dropWhile (· != '=') with
    | [] => some (.value take)
    | _ :: value => (take (String.ofList value)).map .done

def argument (p : Progress) (arg : String) : Option Next :=
  match arg.toList with
  | '-' :: '-' :: cs => p.longOption cs
  | '-' :: c :: cs => p.letters (c :: cs)
  | _ => (p.withCommand arg).map .done

/-- A value must not look like an option. -/
def isValue (s : String) : Bool :=
  match s.toList with
  | '-' :: _ :: _ => false
  | _ => true

def readAll (p : Progress) : List String → Option Progress
  | [] => some p
  | ["--"] => some p
  | arg :: rest => do
    match ← p.argument arg with
    | .done p => readAll p rest
    | .value take =>
      match rest with
      | [] => none
      | value :: rest =>
        if isValue value then
          let p ← take value
          readAll p rest
        else none

end Progress

/-- The arguments of a program run; a device that is not given may come from the environment. -/
def Arguments.parse? (args : List String) (device : Option String) : Option Arguments := do
  let p ← Progress.readAll {} args
  some ⟨p.backend.getD "qulacs", p.device <|> device, p.resultType.getD "statevector", ← p.command⟩

end KetSim.Demo

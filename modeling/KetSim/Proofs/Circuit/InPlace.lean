import Mathlib
import KetSim.Proofs.Circuit.Builder

/-! # Building in place

A builder holds one circuit and changes it as it goes, so an operation that fails shows
what it has changed by then. Instructions and names are checked before anything is
written, the measurement of all qubits declares the bits that it needs and is never
stopped halfway, and the ready-made circuits are built apart from the one at hand. So an
operation that fails leaves the circuit as it was.
-/
namespace KetSim.Circuit

/-- A builder method. A failure leaves the circuit as it is at that moment. -/
abbrev Builder (α : Type) : Type → Type := EStateM CircuitError (Circuit α)

namespace Builder

variable {α β : Type}

/-! ## Methods -/

/-- The rounds of a loop in order, up to the first one that fails. -/
def rounds (body : ℕ → Builder α Unit) : ℕ → Builder α Unit
  | 0 => pure ()
  | n + 1 => do
    rounds body n
    body n

/-- The position of the default register, which is declared last if it is missing. -/
def defaultRegister : Builder α ℕ := do
  let c ← get
  match c.qregs.findIdx? (·.name == defaultQubits) with
  | some position => pure position
  | none =>
    modify fun c => { c with qregs := c.qregs ++ [⟨defaultQubits, []⟩] }
    pure c.qregs.length

def addQubit : Builder α QubitId := do
  let id : QubitId := ⟨(← get).numQubits⟩
  let position ← defaultRegister
  let index := ((← get).qregs[position]?.map (·.size)).getD 0
  modify fun c => { c with
    qregs := c.qregs.modify position fun r => { r with qubits := r.qubits ++ [id] } }
  modify fun c => { c with qubits := c.qubits ++ [⟨id, defaultQubits, index⟩] }
  pure id

/-- The qubits of a register one after another, with their numbers. -/
def pushQubits (name : String) : ℕ → Builder α (List QubitId)
  | 0 => pure []
  | size + 1 => do
    let ids ← pushQubits name size
    let id : QubitId := ⟨(← get).numQubits⟩
    modify fun c => { c with qubits := c.qubits ++ [⟨id, name, size⟩] }
    pure (ids ++ [id])

def addQubitRegister (name : String) (size : ℕ) : Builder α (List QubitId) := do
  if (← get).qregs.any (·.name == name) then throw (.duplicateRegister name)
  let ids ← pushQubits name size
  modify fun c => { c with qregs := c.qregs ++ [⟨name, ids⟩] }
  pure ids

def addClbit : Builder α ClbitId := do
  let c ← get
  let id : ClbitId := ⟨c.numClbits⟩
  let index := c.clbits.countP (·.register == defaultClbits)
  modify fun c => { c with clbits := c.clbits ++ [⟨id, defaultClbits, index⟩] }
  pure id

def pushClbits (name : String) : ℕ → Builder α (List ClbitId)
  | 0 => pure []
  | size + 1 => do
    let ids ← pushClbits name size
    let id : ClbitId := ⟨(← get).numClbits⟩
    modify fun c => { c with clbits := c.clbits ++ [⟨id, name, size⟩] }
    pure (ids ++ [id])

def addClbitRegister (name : String) (size : ℕ) : Builder α (List ClbitId) := do
  if (← get).clbits.any (·.register == name) then throw (.duplicateRegister name)
  pushClbits name size

/-- An instruction is written after its check. -/
def append (i : Instruction α) : Builder α Unit := do
  MonadExcept.ofExcept ((← get).check i)
  modify fun c => { c with instructions := c.instructions ++ [i] }

def fixed (gate : StandardGate) (qubits : List QubitId) : Builder α Unit :=
  append (.ofGate (.fixed gate) qubits)

def apply (gate : StandardGate) (params : List (Angle α)) (qubits : List QubitId) :
    Builder α Unit := do
  let g ← MonadExcept.ofExcept (Gate.standard gate params)
  append (.ofGate g qubits)

def measure (q : QubitId) (b : ClbitId) : Builder α Unit := append (.measure q b)

/-- Declares bits as long as there are fewer of them than qubits. -/
def fillClbits (c : Circuit α) : Circuit α :=
  if c.numClbits < c.numQubits then fillClbits c.addClbit.1 else c
termination_by c.numQubits - c.numClbits
decreasing_by
  rw [numQubits_addClbit, numClbits_addClbit]
  omega

def measureAll : Builder α Unit := do
  modify fillClbits
  rounds (fun k => measure ⟨k⟩ ⟨k⟩) (← get).numQubits

def barrierAll : Builder α Unit := do
  append (.barrier ((← get).qubits.map (·.id)))

/-- The wires of a new circuit. -/
def declare (numQubits numClbits : ℕ) : Builder α Unit := do
  rounds (fun _ => do let _ ← addQubit) numQubits
  rounds (fun _ => do let _ ← addClbit) numClbits

variable [Zero α]

/-- A circuit built apart takes the place of the one at hand, unless it fails. -/
def fresh (name : String) (body : Builder α Unit) : Builder α Unit := fun c =>
  match body (new name) with
  | .ok _ d => .ok () d
  | .error e _ => .error e c

def bell : Builder α Unit := do
  declare 2 2
  fixed .h [⟨0⟩]
  fixed .cx [⟨0⟩, ⟨1⟩]
  measure ⟨0⟩ ⟨0⟩
  measure ⟨1⟩ ⟨1⟩

def ghz (n : ℕ) : Builder α Unit := do
  declare n n
  fixed .h [⟨0⟩]
  rounds (fun k => fixed .cx [⟨k⟩, ⟨k + 1⟩]) (n - 1)
  measureAll

def perform [Add α] : Operation α → Builder α Unit
  | .new name => fresh name (pure ())
  | .withSize name numQubits numClbits => fresh name (declare numQubits numClbits)
  | .bell => fresh "bell" bell
  | .ghz n => if n = 0 then fresh "ghz_0" (pure ()) else fresh "ghz" (ghz n)
  | .addQubit => do let _ ← addQubit
  | .addQubitRegister name size => do let _ ← addQubitRegister name size
  | .addClbit => do let _ ← addClbit
  | .addClbitRegister name size => do let _ ← addClbitRegister name size
  | .append i => append i
  | .apply gate params qubits => apply gate params qubits
  | .gate g qubits => append (.ofGate g qubits)
  | .measure q b => measure q b
  | .measureAll => measureAll
  | .reset q => append (.reset q)
  | .barrier qubits => append (.barrier qubits)
  | .barrierAll => barrierAll
  | .addPhase halfTurns => modify (·.addPhase halfTurns)
  | .bind values => modify (·.bind values)

/-- The circuit that operations leave, whichever of them fail. -/
def after [Add α] (ops : List (Operation α)) (c : Circuit α) : Circuit α :=
  ops.foldl (fun c op => leaves (perform op c)) c

omit [Zero α]

/-! ## Answers -/

/-- The answer of a method, without what it leaves when it fails. -/
def answer : EStateM.Result CircuitError (Circuit α) Unit → Except CircuitError (Circuit α)
  | .ok _ d => .ok d
  | .error e _ => .error e

/-- What a method comes to that changes nothing when it fails. -/
def settled (c : Circuit α) :
    Except CircuitError (Circuit α) → EStateM.Result CircuitError (Circuit α) Unit
  | .ok d => .ok () d
  | .error e => .error e c

@[simp] theorem answer_settled (c : Circuit α) (r : Except CircuitError (Circuit α)) :
    answer (settled c r) = r := by
  cases r <;> rfl

theorem eq_ok_of_answer {r : EStateM.Result CircuitError (Circuit α) Unit} {d : Circuit α}
    (h : answer r = .ok d) : r = .ok () d := by
  cases r with
  | ok u e => rw [Except.ok.inj h]
  | error e f => cases h

theorem answer_bind (m k : Builder α Unit) (c : Circuit α) :
    answer ((do m; k : Builder α Unit) c) = answer (m c) >>= fun d => answer (k d) := by
  change answer (EStateM.bind m (fun _ => k) c) = _
  rw [EStateM.bind]
  cases m c <;> rfl

/-! ## Instructions -/

variable (c : Circuit α)

theorem append_eq (i : Instruction α) : append i c = settled c (c.append i) := by
  change (MonadExcept.ofExcept (c.check i) >>= _ : Builder α Unit) c = settled c (do c.check i; _)
  cases c.check i <;> rfl

theorem apply_eq (gate : StandardGate) (params : List (Angle α)) (qubits : List QubitId) :
    apply gate params qubits c = settled c (c.apply gate params qubits) := by
  change (MonadExcept.ofExcept (Gate.standard gate params) >>= _ : Builder α Unit) c =
    settled c (do let g ← Gate.standard gate params; _)
  cases Gate.standard gate params with
  | error e => rfl
  | ok g => exact append_eq c _

end Builder

/-! ## Repeated steps -/

theorem appendAll_append (c : Circuit α) (before after : List (Instruction α)) :
    c.appendAll (before ++ after) = c.appendAll before >>= (·.appendAll after) := by
  induction before generalizing c with
  | nil =>
    rw [List.nil_append, appendAll_nil]
    rfl
  | cons i rest ih =>
    rw [List.cons_append, appendAll_cons, appendAll_cons]
    cases c.append i with
    | error e => rfl
    | ok d => exact ih d

theorem appendAll_singleton (c : Circuit α) (i : Instruction α) : c.appendAll [i] = c.append i := by
  rw [appendAll_cons]
  cases c.append i with
  | error e => rfl
  | ok d => exact d.appendAll_nil

theorem addClbits_addClbits (c : Circuit α) (n m : ℕ) :
    (c.addClbits n).addClbits m = c.addClbits (n + m) := by
  have hcount : (c.addClbits n).clbits.countP (·.register == defaultClbits) =
      c.clbits.countP (·.register == defaultClbits) + n := by
    simp [addClbits, List.countP_map, Function.comp_def]
  rw [addClbits, hcount, numClbits_addClbits, addClbits, addClbits, range_add_map]
  simp [Nat.add_assoc]

end KetSim.Circuit

namespace KetSim.QuantumRegister

/-- Qubits join the first register of the name. -/
theorem extend_eq_modify (name : String) (ids : List QubitId) (regs : List QuantumRegister) :
    extend name ids regs =
      match regs.findIdx? (·.name == name) with
      | some k => regs.modify k fun r => { r with qubits := r.qubits ++ ids }
      | none => regs ++ [⟨name, ids⟩] := by
  induction regs with
  | nil => rfl
  | cons r rest ih =>
    rw [extend, List.findIdx?_cons]
    by_cases hname : r.name = name
    · simp [hname]
    · rw [if_neg hname, ih]
      cases rest.findIdx? (·.name == name) <;> simp [hname]

theorem sizeOf?_eq_getElem? (name : String) (regs : List QuantumRegister) :
    sizeOf? name regs =
      match regs.findIdx? (·.name == name) with
      | some k => (regs[k]?.map size).getD 0
      | none => 0 := by
  induction regs with
  | nil => rfl
  | cons r rest ih =>
    rw [List.findIdx?_cons]
    by_cases hname : r.name = name
    · simp [sizeOf?, hname]
    · unfold sizeOf? at ih ⊢
      rw [List.find?_cons_of_neg (by simpa using hname), ih]
      cases rest.findIdx? (·.name == name) <;> simp [hname]

theorem extend_extend (name : String) (ids others : List QubitId) (regs : List QuantumRegister) :
    extend name others (extend name ids regs) = extend name (ids ++ others) regs := by
  induction regs with
  | nil => simp [extend]
  | cons r rest ih =>
    by_cases hname : r.name = name
    · simp [extend, hname]
    · simp [extend, hname, ih]

theorem sizeOf?_extend (name : String) (ids : List QubitId) (regs : List QuantumRegister) :
    sizeOf? name (extend name ids regs) = sizeOf? name regs + ids.length := by
  induction regs with
  | nil => simp [extend, sizeOf?, size]
  | cons r rest ih =>
    by_cases hname : r.name = name
    · simp [extend, sizeOf?, size, hname]
    · simpa [extend, sizeOf?, hname] using ih

end KetSim.QuantumRegister

namespace KetSim.Circuit

variable {α : Type}

theorem addQubits_succ (c : Circuit α) (n : ℕ) :
    c.addQubits (n + 1) = (c.addQubits n).addQubit.1 := by
  rcases Nat.eq_zero_or_pos n with rfl | hn
  · rfl
  · have hne : n ≠ 0 := Nat.ne_of_gt hn
    have hone : (List.range 1) = [0] := rfl
    simp only [addQubit, addQubits, if_neg (Nat.succ_ne_zero n), if_neg hne, if_neg Nat.one_ne_zero,
      hone, QuantumRegister.extend_extend, QuantumRegister.sizeOf?_extend, List.range_succ]
    simp [numQubits, Nat.add_assoc]

namespace Builder

variable (c : Circuit α)

/-! ## Wires -/

theorem defaultRegister_eq : defaultRegister c =
    match c.qregs.findIdx? (·.name == defaultQubits) with
    | some k => .ok k c
    | none => .ok c.qregs.length { c with qregs := c.qregs ++ [⟨defaultQubits, []⟩] } := by
  change (match c.qregs.findIdx? (·.name == defaultQubits) with
    | some k => pure k
    | none => _ : Builder α ℕ) c = _
  cases c.qregs.findIdx? (·.name == defaultQubits) <;> rfl

theorem addQubit_eq : addQubit c = .ok c.addQubit.2 c.addQubit.1 := by
  have hadd : c.addQubit.1 = { c with
      qregs := QuantumRegister.extend defaultQubits [⟨c.numQubits⟩] c.qregs
      qubits := c.qubits ++
        [⟨⟨c.numQubits⟩, defaultQubits, QuantumRegister.sizeOf? defaultQubits c.qregs⟩] } := by
    simp [Circuit.addQubit, addQubits]
  rw [hadd, QuantumRegister.extend_eq_modify, QuantumRegister.sizeOf?_eq_getElem?]
  change EStateM.bind defaultRegister _ c = _
  rw [EStateM.bind, defaultRegister_eq]
  cases c.qregs.findIdx? (·.name == defaultQubits) with
  | some k => rfl
  | none =>
    let push (r : QuantumRegister) : QuantumRegister :=
      { r with qubits := r.qubits ++ [⟨c.numQubits⟩] }
    have hmodify : List.modify (c.qregs ++ [⟨defaultQubits, []⟩]) c.qregs.length push =
        c.qregs ++ [⟨defaultQubits, [⟨c.numQubits⟩]⟩] :=
      List.modifyTailIdx_add _ 0 c.qregs [⟨defaultQubits, []⟩]
    refine congrArg₂ EStateM.Result.ok rfl ?_
    simpa [QuantumRegister.size] using hmodify

theorem pushQubits_eq (name : String) (size : ℕ) :
    pushQubits name size c = .ok ((List.range size).map fun i => ⟨c.numQubits + i⟩)
      { c with qubits := c.qubits ++
          (List.range size).map fun i => ⟨⟨c.numQubits + i⟩, name, i⟩ } := by
  induction size with
  | zero => simp [pushQubits, pure, EStateM.pure]
  | succ size ih =>
    change EStateM.bind (pushQubits name size) _ c = _
    rw [EStateM.bind, ih]
    refine congrArg₂ EStateM.Result.ok ?_ ?_ <;> simp [List.range_succ, numQubits]

theorem addQubitRegister_eq (name : String) (size : ℕ) :
    addQubitRegister name size c =
      match c.addQubitRegister name size with
      | .ok (d, ids) => .ok ids d
      | .error e => .error e c := by
  change (if c.qregs.any (·.name == name) then _ else _ : Builder α (List QubitId)) c = _
  rw [Circuit.addQubitRegister]
  cases c.qregs.any (·.name == name) with
  | true => rfl
  | false =>
    change EStateM.bind (pushQubits name size) _ c = _
    rw [EStateM.bind, pushQubits_eq]
    rfl

theorem addClbit_eq : addClbit c = .ok c.addClbit.2 c.addClbit.1 := by
  have hadd : c.addClbit.1 = { c with clbits := c.clbits ++
      [⟨⟨c.numClbits⟩, defaultClbits, c.clbits.countP (·.register == defaultClbits)⟩] } := by
    simp [Circuit.addClbit, addClbits]
  rw [hadd]
  rfl

theorem pushClbits_eq (name : String) (size : ℕ) :
    pushClbits name size c = .ok ((List.range size).map fun i => ⟨c.numClbits + i⟩)
      { c with clbits := c.clbits ++
          (List.range size).map fun i => ⟨⟨c.numClbits + i⟩, name, i⟩ } := by
  induction size with
  | zero => simp [pushClbits, pure, EStateM.pure]
  | succ size ih =>
    change EStateM.bind (pushClbits name size) _ c = _
    rw [EStateM.bind, ih]
    refine congrArg₂ EStateM.Result.ok ?_ ?_ <;> simp [List.range_succ, numClbits]

theorem addClbitRegister_eq (name : String) (size : ℕ) :
    addClbitRegister name size c =
      match c.addClbitRegister name size with
      | .ok (d, ids) => .ok ids d
      | .error e => .error e c := by
  change (if c.clbits.any (·.register == name) then _ else _ : Builder α (List ClbitId)) c = _
  rw [Circuit.addClbitRegister]
  cases c.clbits.any (·.register == name) with
  | true => rfl
  | false => exact pushClbits_eq c name size

/-- A loop whose rounds succeed goes through the circuits that they leave. -/
theorem rounds_eq_ok {f : ℕ → Builder α Unit} {s : ℕ → Circuit α} (n : ℕ)
    (h : ∀ k < n, f k (s k) = .ok () (s (k + 1))) : rounds f n (s 0) = .ok () (s n) := by
  induction n with
  | zero => rfl
  | succ n ih =>
    change EStateM.bind (rounds f n) (fun _ => f n) (s 0) = _
    rw [EStateM.bind, ih fun k hk => h k (Nat.lt_succ_of_lt hk)]
    exact h n (Nat.lt_succ_self n)

theorem rounds_addQubit (n : ℕ) :
    rounds (fun _ => do let _ ← addQubit) n c = .ok () (c.addQubits n) := by
  refine rounds_eq_ok (s := c.addQubits) n fun k _ => ?_
  change EStateM.bind addQubit _ _ = _
  rw [EStateM.bind, addQubit_eq, addQubits_succ]
  rfl

theorem rounds_addClbit (n : ℕ) :
    rounds (fun _ => do let _ ← addClbit) n c = .ok () (c.addClbits n) := by
  have hzero : c.addClbits 0 = c := by simp [addClbits]
  have hrounds := rounds_eq_ok (s := c.addClbits) (f := fun _ => do let _ ← addClbit) n
    fun k _ => by
      change EStateM.bind addClbit _ _ = _
      rw [EStateM.bind, addClbit_eq, ← addClbits_addClbits]
      rfl
  rwa [hzero] at hrounds

theorem fillClbits_eq : fillClbits c = c.addClbits (c.numQubits - c.numClbits) := by
  fun_induction fillClbits c with
  | case1 c hlt ih =>
    rw [ih, numQubits_addClbit, numClbits_addClbit, Circuit.addClbit, addClbits_addClbits]
    congr 1
    omega
  | case2 c hle =>
    rw [Nat.sub_eq_zero_of_le (not_lt.mp hle)]
    simp [addClbits]

/-! ## Composite methods -/

theorem answer_rounds_append (f : ℕ → Instruction α) (n : ℕ) :
    answer (rounds (fun k => append (f k)) n c) = c.appendAll ((List.range n).map f) := by
  induction n with
  | zero => exact c.appendAll_nil.symm
  | succ n ih =>
    rw [rounds, answer_bind, ih, List.range_succ, List.map_append, appendAll_append]
    refine bind_congr fun d => ?_
    rw [append_eq, answer_settled, List.map_singleton, appendAll_singleton]

theorem measureAll_eq : measureAll c = settled c c.measureAll := by
  obtain ⟨d, hd⟩ := c.exists_measureAll
  rw [hd]
  apply eq_ok_of_answer
  change answer (rounds (fun k => append (.measure ⟨k⟩ ⟨k⟩)) (fillClbits c).numQubits
    (fillClbits c)) = _
  rw [answer_rounds_append, fillClbits_eq, numQubits_addClbits]
  exact hd

variable [Zero α]

theorem declare_eq (name : String) (n m : ℕ) :
    declare n m (new name) = .ok () (withSize name n m : Circuit α) := by
  change EStateM.bind (rounds _ n) _ (new name) = _
  rw [EStateM.bind, rounds_addQubit]
  exact rounds_addClbit _ m

theorem answer_declare_bind (name : String) (n m : ℕ) (k : Builder α Unit) :
    answer ((do declare n m; k : Builder α Unit) (new name)) = answer (k (withSize name n m)) := by
  rw [answer_bind, declare_eq]
  rfl

theorem fresh_eq (name : String) (body : Builder α Unit) :
    fresh name body c = settled c (answer (body (new name))) := by
  rw [fresh]
  cases body (new name) <;> rfl

omit [Zero α] in
theorem answer_fixed {gate : StandardGate} (h : gate.numParams = 0) (qubits : List QubitId) :
    answer (fixed gate qubits c) = c.apply gate [] qubits := by
  have hgate : (Gate.standard gate [] : Except CircuitError (Gate α)) = .ok (.fixed gate) := by
    simp [Gate.standard, Gate.fixed, h]
  rw [fixed, append_eq, answer_settled, Circuit.apply, hgate]
  rfl

theorem answer_bell : answer (bell (new "bell" : Circuit α)) = Circuit.bell := by
  have hmeasure (q : QubitId) (b : ClbitId) (c : Circuit α) :
      answer (measure q b c) = c.measure q b := by
    rw [measure, append_eq, answer_settled]
    rfl
  rw [bell, answer_declare_bind, answer_bind, answer_fixed _ rfl]
  refine bind_congr fun c => ?_
  rw [answer_bind, answer_fixed c rfl]
  refine bind_congr fun c => ?_
  rw [answer_bind, hmeasure]
  exact bind_congr fun c => hmeasure _ _ c

theorem answer_ghz {n : ℕ} (hn : n ≠ 0) :
    answer (ghz n (new "ghz" : Circuit α)) = Circuit.ghz n := by
  rw [ghz, answer_declare_bind, Circuit.ghz, if_neg hn, answer_bind, answer_fixed _ rfl]
  refine bind_congr fun c => ?_
  rw [answer_bind]
  refine congrArg₂ _ (answer_rounds_append c _ (n - 1)) (funext fun d => ?_)
  rw [measureAll_eq, answer_settled]

variable [Add α]

/-- An operation in place leaves the circuit that it has for an answer, or else the circuit as it
was. -/
theorem perform_eq (op : Operation α) : perform op c = settled c (c.perform op) := by
  cases op with
  | new name => rfl
  | withSize name n m => rw [perform, fresh_eq, declare_eq]; rfl
  | bell => rw [perform, fresh_eq, answer_bell]; rfl
  | ghz n =>
    by_cases hn : n = 0
    · subst hn
      rfl
    · rw [perform, if_neg hn, fresh_eq, answer_ghz hn]
      rfl
  | addQubit =>
    change EStateM.bind addQubit _ c = _
    rw [EStateM.bind, addQubit_eq]
    rfl
  | addQubitRegister name size =>
    change EStateM.bind (addQubitRegister name size) _ c = settled c (Except.map _ _)
    rw [EStateM.bind, addQubitRegister_eq]
    cases c.addQubitRegister name size <;> rfl
  | addClbit =>
    change EStateM.bind (addClbit : Builder α ClbitId) (fun _ => pure ()) c = _
    rw [EStateM.bind, addClbit_eq]
    rfl
  | addClbitRegister name size =>
    change EStateM.bind (addClbitRegister name size) _ c = settled c (Except.map _ _)
    rw [EStateM.bind, addClbitRegister_eq]
    cases c.addClbitRegister name size <;> rfl
  | append i => exact append_eq c i
  | apply gate params qubits => exact apply_eq c gate params qubits
  | gate g qubits => exact append_eq c (.ofGate g qubits)
  | measure q b => exact append_eq c (.measure q b)
  | measureAll => exact measureAll_eq c
  | reset q => exact append_eq c (.reset q)
  | barrier qubits => exact append_eq c (.barrier qubits)
  | barrierAll => exact append_eq c (.barrier (c.qubits.map (·.id)))
  | addPhase x => rfl
  | bind values => rfl

theorem leaves_perform (op : Operation α) : leaves (perform op c) = c.step op := by
  rw [perform_eq, step]
  cases c.perform op <;> rfl

/-- Operations in place leave the circuit after them. -/
theorem after_eq (ops : List (Operation α)) : after ops c = c.after ops := by
  have hstep : (fun (c : Circuit α) op => leaves (perform op c)) = step :=
    funext fun c => funext fun op => leaves_perform c op
  rw [after, hstep]
  rfl

end Builder

end KetSim.Circuit

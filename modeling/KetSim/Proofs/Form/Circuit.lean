import KetSim.Decimal.Float
import KetSim.Form.Circuit
import KetSim.Proofs.Circuit.Alike
import KetSim.Proofs.Circuit.Registers
import KetSim.Proofs.Json.Value
import KetSim.Proofs.Outcome

/-! # Circuits as text

A circuit of the builder is read back from its text without any change: names with
quotes, control characters or letters of any script, angles of any nesting, and the lists that
are left out when they are empty. Wires are numbered by words of 32 bits, and every
number has a decimal that reads back as the number.
-/
namespace KetSim

/-! ## Forms -/

/-- A value comes back from its JSON form, which nests at most this deep. -/
structure Recovers {β : Type} [JsonForm β] (depth : ℕ) (x : β) : Prop where
  plain : Json.Plain depth (toJson x)
  ofJson_toJson : ofJson? (toJson x) = some x

section

variable {β : Type} [JsonForm β] {depth : ℕ}

theorem Recovers.mono {deeper : ℕ} {x : β} (h : Recovers depth x) (hle : depth ≤ deeper) :
    Recovers deeper x :=
  ⟨h.plain.mono hle, h.ofJson_toJson⟩

theorem plain_list {xs : List β} (h : ∀ x ∈ xs, Recovers depth x) :
    Json.Plain (depth + 1) (Json.ofList toJson xs) := by
  apply Json.Plain.arr
  intro j hj
  obtain ⟨x, hx, rfl⟩ := List.mem_map.mp hj
  exact (h x hx).plain

theorem listOf_ofList {xs : List β} (h : ∀ x ∈ xs, Recovers depth x) :
    Json.listOf? ofJson? (Json.ofList toJson xs) = some xs := by
  have hitems : (xs.map toJson).mapM ofJson? = some xs := by
    rw [mapM_eq_some, List.forall₂_map_left_iff, List.forall₂_same]
    exact fun x hx => (h x hx).ofJson_toJson
  simp [Json.listOf?, Json.ofList, Json.items?, hitems]

end

theorem nat_int {limit n : ℕ} (h : n < limit) : Json.nat? limit (.int n) = some n := by
  simp [Json.nat?, h]

theorem plain_wire {depth n : ℕ} (h : n < wireLimit) : Json.Plain depth (.int n) := by
  refine .int ?_
  have hn : n < 2 ^ 32 := h
  simp only [Json.isWord, Bool.and_eq_true, decide_eq_true_eq]
  omega

/-! ## Wires -/

theorem recovers_qubitId {q : QubitId} (h : q.index < wireLimit) : Recovers 0 q :=
  ⟨plain_wire h, by simp [toJson, ofJson?, nat_int h]⟩

theorem recovers_clbitId {b : ClbitId} (h : b.index < wireLimit) : Recovers 0 b :=
  ⟨plain_wire h, by simp [toJson, ofJson?, nat_int h]⟩

/-- The members of a wire: its number, its register and its place there. -/
theorem plain_slot {id : Json} (hid : Json.Plain 0 id) (register : String) {index : ℕ}
    (hindex : index < wireLimit) :
    Json.Plain 1 (.obj [("id", id), ("register", .str register), ("index", .int index)]) := by
  apply Json.Plain.obj
  intro m hm
  simp only [List.mem_cons, List.not_mem_nil, or_false] at hm
  obtain rfl | rfl | rfl := hm
  · exact hid
  · exact .str _
  · exact plain_wire hindex

theorem recovers_qubit {q : Qubit} (hid : q.id.index < wireLimit) (hindex : q.index < wireLimit) :
    Recovers 1 q := by
  obtain ⟨id, register, index⟩ := q
  obtain ⟨hplain, hword⟩ := recovers_qubitId hid
  refine ⟨plain_slot hplain register hindex, ?_⟩
  simp only [toJson, ofJson?] at hword ⊢
  simp [Json.record?, Json.Record.required, List.lookup, Json.string?, nat_int hindex, hword]

theorem recovers_clbit {b : Clbit} (hid : b.id.index < wireLimit) (hindex : b.index < wireLimit) :
    Recovers 1 b := by
  obtain ⟨id, register, index⟩ := b
  obtain ⟨hplain, hword⟩ := recovers_clbitId hid
  refine ⟨plain_slot hplain register hindex, ?_⟩
  simp only [toJson, ofJson?] at hword ⊢
  simp [Json.record?, Json.Record.required, List.lookup, Json.string?, nat_int hindex, hword]

theorem recovers_register {r : QuantumRegister} (h : ∀ q ∈ r.qubits, q.index < wireLimit) :
    Recovers 2 r := by
  obtain ⟨name, qubits⟩ := r
  have hqubits : ∀ q ∈ qubits, Recovers 0 q := fun q hq => recovers_qubitId (h q hq)
  have hread := listOf_ofList hqubits
  constructor
  · apply Json.Plain.obj
    intro m hm
    simp only [List.mem_cons, List.not_mem_nil, or_false] at hm
    obtain rfl | rfl := hm
    · exact .str _
    · exact plain_list hqubits
  · simp only [toJson, ofJson?] at hread ⊢
    simp [Json.record?, Json.Record.required, List.lookup, Json.string?, hread]

/-! ## Angles -/

section

variable {α : Type} [DecimalText α]

/-- A finite number with a decimal in normal form that is read back as the number. -/
def ReadsBack (x : α) : Prop :=
  ∃ d, DecimalText.reading Decimal.Layout.data.tie x = .finite d ∧ d.normalize = d ∧
    DecimalText.ofDecimal d = x

theorem recovers_scalar {x : α} (h : ReadsBack x) :
    Json.Plain 0 (Json.ofScalar x) ∧ Json.scalar? (Json.ofScalar x) = some x := by
  obtain ⟨d, hreading, hnormal, hvalue⟩ := h
  have hform : Json.ofScalar x = .decimal d := by rw [Json.ofScalar, hreading]
  rw [hform, Json.scalar?, hvalue]
  exact ⟨.decimal hnormal, rfl⟩

/-- How deep the JSON form of an angle nests. -/
def Angle.nesting : Angle α → ℕ
  | constant _ => 1
  | symbol _ => 1
  | neg e => e.nesting + 1
  | add a b | sub a b | mul a b | div a b => max a.nesting b.nesting + 2

theorem plain_tagged {depth : ℕ} {j : Json} (name : String) (h : Json.Plain depth j) :
    Json.Plain (depth + 1) (Json.tagged name j) := by
  apply Json.Plain.obj
  intro m hm
  obtain rfl := List.mem_singleton.mp hm
  exact h

theorem plain_pair {depth : ℕ} {j k : Json} (hj : Json.Plain depth j) (hk : Json.Plain depth k) :
    Json.Plain (depth + 1) (Json.pair j k) := by
  apply Json.Plain.arr
  intro item hitem
  simp only [List.mem_cons, List.not_mem_nil, or_false] at hitem
  obtain rfl | rfl := hitem
  · exact hj
  · exact hk

theorem recovers_angle {e : Angle α} (h : e.All ReadsBack) : Recovers e.nesting e := by
  have hbinary {a b : Angle α} (name : String) (ha : Recovers a.nesting a)
      (hb : Recovers b.nesting b) : Json.Plain (max a.nesting b.nesting + 2)
        (Json.tagged name (Json.pair a.toJson b.toJson)) :=
    plain_tagged name (plain_pair (ha.plain.mono (le_max_left _ _))
      (hb.plain.mono (le_max_right _ _)))
  induction e with
  | constant x =>
    obtain ⟨hplain, hread⟩ := recovers_scalar h
    refine ⟨plain_tagged "Constant" hplain, ?_⟩
    simp [toJson, ofJson?, Angle.toJson, Angle.ofJson?, Json.tagged, hread]
  | symbol name =>
    refine ⟨plain_tagged "Symbol" (.str name), ?_⟩
    simp [toJson, ofJson?, Angle.toJson, Angle.ofJson?, Json.tagged, Json.string?]
  | neg e ih =>
    obtain ⟨hplain, hread⟩ := ih h
    refine ⟨plain_tagged "Neg" hplain, ?_⟩
    simp only [toJson, ofJson?] at hread ⊢
    simp [Angle.toJson, Angle.ofJson?, Json.tagged, hread]
  | add a b iha ihb | sub a b iha ihb | mul a b iha ihb | div a b iha ihb =>
    refine ⟨hbinary _ (iha h.1) (ihb h.2), ?_⟩
    have ha := (iha h.1).ofJson_toJson
    have hb := (ihb h.2).ofJson_toJson
    simp only [toJson, ofJson?] at ha hb ⊢
    simp [Angle.toJson, Angle.ofJson?, Angle.binary?, Json.tagged, Json.pair, ha, hb]

end

/-! ## Gates -/

theorem recovers_standardGate (g : StandardGate) : Recovers 0 g := by
  cases g <;> exact ⟨.str _, rfl⟩

theorem recovers_gateKind {kind : GateKind} (h : ∀ g, kind = .custom g → g.numQubits < wireLimit) :
    Recovers 2 kind := by
  cases kind with
  | standard g =>
    obtain ⟨hplain, hread⟩ := recovers_standardGate g
    refine ⟨(plain_tagged "Standard" hplain).mono (by decide), ?_⟩
    simp only [toJson, ofJson?] at hread ⊢
    simp [Json.tagged, Json.choice?, hread]
  | custom g =>
    have hword := h g rfl
    constructor
    · refine plain_tagged "Custom" (.obj fun m hm => ?_)
      simp only [List.mem_cons, List.not_mem_nil, or_false] at hm
      obtain rfl | rfl := hm
      · exact .str _
      · exact plain_wire hword
    · simp [toJson, ofJson?, Json.tagged, Json.choice?, Json.record?, Json.Record.required,
        List.lookup, Json.string?, nat_int hword]

section

variable {α : Type} [DecimalText α] {depth : ℕ}

theorem plain_nonempty {items : List Json} (name : String)
    (h : Json.Plain (depth + 1) (.arr items)) :
    ∀ m ∈ Json.nonempty name items, Json.Plain (depth + 1) m.2 := by
  intro m hm
  unfold Json.nonempty at hm
  split at hm
  · cases hm
  · obtain rfl := List.mem_singleton.mp hm
    exact h

theorem required_of_lookup {γ : Type} {members : List (String × Json)} {name : String}
    {value : Json → Option γ} {j : Json} {x : γ} (h : members.lookup name = some j)
    (hj : value j = some x) : (Json.Record.mk members false).required name value = some x := by
  simp [Json.Record.required, h, hj]

/-- A list that is left out when it is empty comes back either way. -/
theorem withDefault_nonempty {β : Type} [JsonForm β] {members : List (String × Json)}
    {name : String} {xs : List β} (hmembers : members.lookup name = none)
    (hxs : ∀ x ∈ xs, Recovers depth x) :
    (Json.Record.mk (members ++ Json.nonempty name (xs.map toJson)) false).withDefault name []
      (Json.listOf? ofJson?) = some xs := by
  have hread := listOf_ofList hxs
  unfold Json.Record.withDefault
  rw [List.lookup_append, hmembers, Option.none_or]
  cases xs with
  | nil => rfl
  | cons x xs =>
    have hlookup : (Json.nonempty name ((x :: xs).map toJson)).lookup name =
        some (Json.ofList toJson (x :: xs)) := by
      simp [Json.nonempty, Json.ofList]
    rw [hlookup]
    exact hread

theorem recovers_gate {g : Gate α} (hkind : Recovers (depth + 1) g.kind)
    (hparams : ∀ e ∈ g.params, Recovers depth e) : Recovers (depth + 2) g := by
  obtain ⟨kind, params⟩ := g
  let members := [("kind", toJson kind)] ++ Json.nonempty "params" (params.map toJson)
  constructor
  · apply Json.Plain.obj
    intro m hm
    obtain rfl | hm := List.mem_cons.mp hm
    · exact hkind.plain
    · exact plain_nonempty "params" (plain_list hparams) m hm
  · have hread : (Json.Record.mk members false).required "kind" ofJson? = some kind :=
      required_of_lookup (by simp [members]) hkind.ofJson_toJson
    have hlist : (Json.Record.mk members false).withDefault "params" [] (Json.listOf? ofJson?) =
        some params := withDefault_nonempty rfl hparams
    change (((Json.Record.mk members false).required "kind" ofJson?).bind fun k =>
      ((Json.Record.mk members false).withDefault "params" [] (Json.listOf? ofJson?)).bind fun p =>
        some (Gate.mk k p)) = _
    rw [hread, hlist]
    rfl

/-! ## Instructions -/

theorem recovers_instructionKind {kind : InstructionKind α}
    (h : ∀ g, kind = .gate g → Recovers depth g) : Recovers (depth + 1) kind := by
  cases kind with
  | gate g =>
    obtain ⟨hplain, hread⟩ := h g rfl
    refine ⟨plain_tagged "Gate" hplain, ?_⟩
    change (ofJson? (toJson g)).map InstructionKind.gate = _
    rw [hread]
    rfl
  | measure | reset | barrier => exact ⟨.str _, rfl⟩

theorem recovers_instruction {i : Instruction α} (hkind : Recovers (depth + 1) i.kind)
    (hqubits : ∀ q ∈ i.qubits, q.index < wireLimit)
    (hclbits : ∀ b ∈ i.clbits, b.index < wireLimit) : Recovers (depth + 2) i := by
  obtain ⟨kind, qubits, clbits⟩ := i
  have hq : ∀ q ∈ qubits, Recovers depth q := fun q hq =>
    (recovers_qubitId (hqubits q hq)).mono (Nat.zero_le depth)
  have hb : ∀ b ∈ clbits, Recovers depth b := fun b hb =>
    (recovers_clbitId (hclbits b hb)).mono (Nat.zero_le depth)
  let members := [("kind", toJson kind), ("qubits", Json.ofList toJson qubits)] ++
    Json.nonempty "clbits" (clbits.map toJson)
  constructor
  · apply Json.Plain.obj
    intro m hm
    obtain rfl | hm := List.mem_cons.mp hm
    · exact hkind.plain
    obtain rfl | hm := List.mem_cons.mp hm
    · exact plain_list hq
    · exact plain_nonempty "clbits" (plain_list hb) m hm
  · have hread : (Json.Record.mk members false).required "kind" ofJson? = some kind :=
      required_of_lookup (by simp [members]) hkind.ofJson_toJson
    have hwires : (Json.Record.mk members false).required "qubits" (Json.listOf? ofJson?) =
        some qubits := required_of_lookup (by simp [members, List.lookup]) (listOf_ofList hq)
    have hlist : (Json.Record.mk members false).withDefault "clbits" [] (Json.listOf? ofJson?) =
        some clbits := withDefault_nonempty rfl hb
    change (((Json.Record.mk members false).required "kind" ofJson?).bind fun k =>
      ((Json.Record.mk members false).required "qubits" (Json.listOf? ofJson?)).bind fun q =>
        ((Json.Record.mk members false).withDefault "clbits" [] (Json.listOf? ofJson?)).bind
          fun b => some (Instruction.mk k q b)) = _
    rw [hread, hwires, hlist]
    rfl

/-! ## Circuits -/

namespace Circuit

/-- How deep the text of a circuit nests at most: six levels around its angles. -/
def nesting (c : Circuit α) : ℕ :=
  (c.gates.flatMap (·.params)).foldr (fun e depth => max e.nesting depth) 1 + 6

omit [DecimalText α] in
theorem nesting_le_foldr (es : List (Angle α)) :
    1 ≤ es.foldr (fun e depth => max e.nesting depth) 1 ∧
      ∀ e ∈ es, e.nesting ≤ es.foldr (fun e depth => max e.nesting depth) 1 := by
  induction es with
  | nil => exact ⟨le_rfl, fun e he => absurd he List.not_mem_nil⟩
  | cons e es ih =>
    refine ⟨ih.1.trans (le_max_right _ _), ?_⟩
    intro f hf
    rcases List.mem_cons.mp hf with rfl | hf
    · exact le_max_left _ _
    · exact (ih.2 f hf).trans (le_max_right _ _)

/-- A circuit comes back from its JSON form if its wires, registers and instructions do. -/
theorem recovers_of_parts {c : Circuit α} (hqubits : ∀ q ∈ c.qubits, Recovers depth q)
    (hclbits : ∀ b ∈ c.clbits, Recovers depth b) (hqregs : ∀ r ∈ c.qregs, Recovers depth r)
    (hinstructions : ∀ i ∈ c.instructions, Recovers depth i) (hphase : ReadsBack c.phase) :
    Recovers (depth + 2) c := by
  obtain ⟨name, qubits, clbits, qregs, instructions, phase⟩ := c
  obtain ⟨hplain, hscalar⟩ := recovers_scalar hphase
  let members := [("name", Json.str name), ("qubits", Json.ofList toJson qubits),
    ("clbits", Json.ofList toJson clbits), ("qregs", Json.ofList toJson qregs),
    ("instructions", Json.ofList toJson instructions), ("phase", Json.ofScalar phase)]
  constructor
  · apply Json.Plain.obj
    intro m hm
    simp only [List.mem_cons, List.not_mem_nil, or_false] at hm
    obtain rfl | rfl | rfl | rfl | rfl | rfl := hm
    · exact .str name
    · exact plain_list hqubits
    · exact plain_list hclbits
    · exact plain_list hqregs
    · exact plain_list hinstructions
    · exact hplain.mono (Nat.zero_le _)
  · let r := Json.Record.mk members false
    have hn : r.required "name" Json.string? = some name := required_of_lookup rfl rfl
    have hq : r.required "qubits" (Json.listOf? ofJson?) = some qubits :=
      required_of_lookup rfl (listOf_ofList hqubits)
    have hb : r.required "clbits" (Json.listOf? ofJson?) = some clbits :=
      required_of_lookup rfl (listOf_ofList hclbits)
    have hr : r.required "qregs" (Json.listOf? ofJson?) = some qregs :=
      required_of_lookup rfl (listOf_ofList hqregs)
    have hi : r.required "instructions" (Json.listOf? ofJson?) = some instructions :=
      required_of_lookup rfl (listOf_ofList hinstructions)
    have hp : r.required "phase" Json.scalar? = some phase := required_of_lookup rfl hscalar
    change (r.required "name" Json.string?).bind (fun n =>
      (r.required "qubits" (Json.listOf? ofJson?)).bind fun q =>
      (r.required "clbits" (Json.listOf? ofJson?)).bind fun b =>
      (r.required "qregs" (Json.listOf? ofJson?)).bind fun r' =>
      (r.required "instructions" (Json.listOf? ofJson?)).bind fun i =>
      (r.required "phase" Json.scalar?).bind fun p => some (Circuit.mk n q b r' i p)) = _
    rw [hn, hq, hb, hr, hi, hp]
    rfl

/-- A circuit of the builder comes back from its JSON form. -/
theorem recovers [Zero α] [Add α] {c : Circuit α} (hc : c.Built) (hqubits : c.numQubits < wireLimit)
    (hclbits : c.numClbits < wireLimit) (hnumbers : c.All ReadsBack) : Recovers c.nesting c := by
  have hwf := hc.wellFormed
  have hfiled := hc.filed
  obtain ⟨hone, hdeep⟩ := nesting_le_foldr (c.gates.flatMap (·.params))
  have hnesting : c.nesting =
    (c.gates.flatMap (·.params)).foldr (fun e depth => max e.nesting depth) 1 + 6 := rfl
  generalize (c.gates.flatMap (·.params)).foldr (fun e depth => max e.nesting depth) 1 = depth
    at hone hdeep hnesting
  rw [hnesting]
  refine recovers_of_parts ?wires ?bits ?registers ?instructions hnumbers.phase
  case wires =>
    intro q hq
    obtain ⟨hid, hindex⟩ := hfiled.qubit_lt hq
    exact (recovers_qubit (hid.trans hqubits) (hindex.trans hqubits)).mono (by omega)
  case bits =>
    intro b hb
    have hid : b.id ∈ (List.range c.numClbits).map ClbitId.mk := by
      rw [← hwf.clbits]
      exact List.mem_map_of_mem hb
    obtain ⟨k, hk, hkb⟩ := List.mem_map.mp hid
    have hlt : b.id.index < c.numClbits := by
      rw [← hkb]
      exact List.mem_range.mp hk
    exact (recovers_clbit (hlt.trans hclbits) ((hfiled.clbit_lt hb).trans hclbits)).mono (by omega)
  case registers =>
    intro r hr
    refine (recovers_register fun q hq => ?_).mono (by omega)
    have hmem : q ∈ (List.range c.numQubits).map QubitId.mk :=
      hwf.qubits.mem_iff.mp (List.mem_flatMap.mpr ⟨r, hr, hq⟩)
    obtain ⟨k, hk, rfl⟩ := List.mem_map.mp hmem
    exact (List.mem_range.mp hk).trans hqubits
  case instructions =>
    intro i hi
    have hfits := hwf.instructions i hi
    refine recovers_instruction (recovers_instructionKind fun g hg => recovers_gate ?_ ?_)
      (fun q hq => (hfits.lt q hq).trans hqubits) fun b hb => (hfits.clbits_lt b hb).trans hclbits
    · refine (recovers_gateKind fun k hk => ?_).mono (by omega)
      have hlength := hfits.length_qubits hg
      have hle := hwf.length_qubits_le hi
      rw [Gate.numQubits, hk] at hlength
      exact (hlength ▸ hle).trans_lt hqubits
    · intro e he
      have hmem := mem_gates hi hg
      exact (recovers_angle (hnumbers.constants g hmem e he)).mono
        (hdeep e (List.mem_flatMap.mpr ⟨g, hmem, he⟩))

theorem Recovers.deserialize {c : Circuit α} (h : Recovers depth c) :
    deserialize? depth c.serialize = some c := by
  rw [deserialize?, serialize, h.plain.parseWithin_text]
  exact h.ofJson_toJson

/-- A circuit of the builder is read back from its text by every reader that allows its nesting,
and no other circuit has the text. -/
theorem deserialize_serialize [Zero α] [Add α] {c : Circuit α} (hc : c.Built)
    (hqubits : c.numQubits < wireLimit) (hclbits : c.numClbits < wireLimit)
    (hnumbers : c.All ReadsBack) :
    (∀ depth, c.nesting ≤ depth → deserialize? depth c.serialize = some c) ∧
      ∀ d : Circuit α, d.Built → d.numQubits < wireLimit → d.numClbits < wireLimit →
        d.All ReadsBack → d.serialize = c.serialize → d = c := by
  have hrecovers := recovers hc hqubits hclbits hnumbers
  refine ⟨fun depth hdepth => Recovers.deserialize (hrecovers.mono hdepth), ?_⟩
  intro d hd hdqubits hdclbits hdnumbers hsame
  -- Both circuits are what a reader that allows either nesting makes of the one text.
  have hleft := Recovers.deserialize (hrecovers.mono (le_max_left c.nesting d.nesting))
  have hright := Recovers.deserialize
    ((recovers hd hdqubits hdclbits hdnumbers).mono (le_max_right c.nesting d.nesting))
  rw [hsame, hleft] at hright
  exact (Option.some.inj hright).symm

end Circuit

end

/-- A circuit with names that have to be escaped, a nested angle, a gate known by name only and the
most extreme finite numbers. -/
def quoted : Circuit Float :=
  { Circuit.withSize "\"\\\x01\né😀" 2 1 with
    instructions := [
      .ofGate ⟨.standard .rx, [.div (.neg (.add (.constant 0.1) (.symbol "θ\""))) (.constant 5e-324)]⟩
        [⟨1⟩],
      .ofGate ⟨.custom ⟨"\tψ", 2⟩, [.constant (-0.0), .constant 1.7976931348623157e308]⟩ [⟨1⟩, ⟨0⟩],
      .barrier [], .measure ⟨0⟩ ⟨0⟩] }

theorem quoted_built : quoted.Built := by
  have happend : (Circuit.withSize "\"\\\x01\né😀" 2 1).appendAll quoted.instructions =
      .ok quoted := rfl
  exact (Circuit.Built.withSize _ 2 1).appendAll happend

theorem quoted_numbers : quoted.All ReadsBack := by
  have htenth : ReadsBack (0.1 : Float) := ⟨⟨false, 1, -1⟩, by decide +kernel⟩
  have hleast : ReadsBack (5e-324 : Float) := ⟨⟨false, 5, -324⟩, by decide +kernel⟩
  have hgreatest : ReadsBack (1.7976931348623157e308 : Float) :=
    ⟨⟨false, 17976931348623157, 292⟩, by decide +kernel⟩
  have hzero : ReadsBack (-0.0 : Float) := ⟨⟨true, 0, 0⟩, by decide +kernel⟩
  have hphase : ReadsBack (0.0 : Float) := ⟨⟨false, 0, 0⟩, by decide +kernel⟩
  refine ⟨hphase, ?_⟩
  intro g hg e he
  have hgates : quoted.gates = [⟨.standard .rx,
      [.div (.neg (.add (.constant 0.1) (.symbol "θ\""))) (.constant 5e-324)]⟩,
      ⟨.custom ⟨"\tψ", 2⟩, [.constant (-0.0), .constant 1.7976931348623157e308]⟩] := rfl
  rw [hgates] at hg
  simp only [List.mem_cons, List.not_mem_nil, or_false] at hg
  obtain rfl | rfl := hg
  · obtain rfl := List.mem_singleton.mp he
    exact ⟨⟨htenth, trivial⟩, hleast⟩
  · simp only [List.mem_cons, List.not_mem_nil, or_false] at he
    obtain rfl | rfl := he
    · exact hzero
    · exact hgreatest

/-- The text of the circuit with escaped names, read within the standard limit. -/
theorem deserialize_serialize_quoted :
    quoted.Built ∧ quoted.numQubits < wireLimit ∧ quoted.numClbits < wireLimit ∧
      quoted.All ReadsBack ∧
        Circuit.deserialize? Circuit.nestingLimit quoted.serialize = some quoted := by
  have hqubits : quoted.numQubits < wireLimit := by decide
  have hclbits : quoted.numClbits < wireLimit := by decide
  have hnesting : quoted.nesting ≤ Circuit.nestingLimit := by decide
  exact ⟨quoted_built, hqubits, hclbits, quoted_numbers,
    (Circuit.deserialize_serialize quoted_built hqubits hclbits quoted_numbers).1 _ hnesting⟩

end KetSim

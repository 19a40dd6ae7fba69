import KetSim.Backend.Capabilities
import KetSim.Backend.Job
import KetSim.Backend.RunMode
import KetSim.Form.Pauli
import KetSim.Form.Result

/-! # JSON form of backend data

Numberings, capabilities, run modes and jobs.
-/
namespace KetSim

instance : JsonForm Numbering where
  toJson n := .obj [("reverse_index", .bool n.mirrored)]
  ofJson? j := do
    let r ← j.record? ["reverse_index"]
    some ⟨← r.required "reverse_index" Json.bool?⟩

/-! ## Capabilities -/

def Json.strings? : Json → Option (List String) := Json.listOf? Json.string?

def Json.ofStrings : List String → Json := Json.ofList Json.str

instance : JsonForm GateSet where
  toJson s :=
    .obj ([("single_qubit", Json.ofStrings s.singleQubit), ("two_qubit", Json.ofStrings s.twoQubit)] ++
      Json.nonempty "three_qubit" (s.threeQubit.map Json.str))
  ofJson? j := do
    let r ← j.record? ["single_qubit", "two_qubit", "three_qubit"]
    some ⟨← r.required "single_qubit" Json.strings?, ← r.required "two_qubit" Json.strings?,
      ← r.withDefault "three_qubit" [] Json.strings?⟩

instance : JsonForm Capabilities where
  toJson c :=
    .obj ([("name", .str c.name), ("num_qubits", .int c.numQubits), ("gate_set", toJson c.gateSet),
      ("max_shots", .int c.maxShots), ("is_simulator", .bool c.isSimulator)] ++
      Json.nonempty "features" (c.features.map Json.str))
  ofJson? j := do
    let r ← j.record? ["name", "num_qubits", "gate_set", "max_shots", "is_simulator", "features"]
    some ⟨← r.required "name" Json.string?, ← r.required "num_qubits" (Json.nat? (2 ^ 32)),
      ← r.required "gate_set" ofJson?, ← r.required "max_shots" (Json.nat? (2 ^ 32)),
      ← r.required "is_simulator" Json.bool?, ← r.withDefault "features" [] Json.strings?⟩

/-! ## Run modes -/

instance {α : Type} [DecimalText α] : JsonForm (RunMode α) where
  toJson
    | .state => .str "State"
    | .shots count seed =>
      Json.tagged "Shots" (.obj [("n_shots", .int count), ("seed", Json.ofOption Json.ofSeed seed)])
    | .expectation op => Json.tagged "Expectation" (toJson op)
  ofJson? j :=
    match j.choice? with
    | some ("Shots", some (.obj members)) => do
      let r : Json.Record := ⟨members, false⟩
      some (.shots (← r.required "n_shots" Json.word?) (← r.optional "seed" Json.seed?))
    | some ("Expectation", some payload) => (ofJson? payload).map .expectation
    | _ => j.named? [("State", .state)]

/-! ## Jobs -/

instance : JsonForm JobId := ⟨fun id => .str id.text, fun j => j.string?.map JobId.mk⟩

instance : JsonForm JobStatus where
  toJson
    | .queued => .str "Queued"
    | .running => .str "Running"
    | .completed => .str "Completed"
    | .failed reason => Json.tagged "Failed" (.str reason)
  ofJson? j :=
    match j.choice? with
    | some ("Failed", some payload) => payload.string?.map .failed
    | _ => j.named? [("Queued", .queued), ("Running", .running), ("Completed", .completed)]

instance : JsonForm Timestamp :=
  ⟨fun t => .str t.text, fun j => j.string? >>= Timestamp.parse?⟩

instance : JsonForm Job where
  toJson job :=
    .obj ([("id", toJson job.id), ("status", toJson job.status), ("mode", .str job.mode),
      ("created_at", toJson job.createdAt)] ++
      Json.present "started_at" (job.startedAt.map toJson) ++
      Json.present "finished_at" (job.finishedAt.map toJson) ++
      Json.present "backend" (job.backend.map Json.str))
  ofJson? j := do
    let r ← j.record? ["id", "status", "mode", "created_at", "started_at", "finished_at", "backend"]
    some ⟨← r.required "id" ofJson?, ← r.required "status" ofJson?,
      ← r.required "mode" Json.string?, ← r.required "created_at" ofJson?,
      ← r.optional "started_at" ofJson?, ← r.optional "finished_at" ofJson?,
      ← r.optional "backend" Json.string?⟩

end KetSim

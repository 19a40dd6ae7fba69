import KetSim.Backend.Result
import KetSim.Json.Form

/-! # JSON form of results -/
namespace KetSim

def BasisOrder.table : List (String × BasisOrder) := [("Ilo", .ilo), ("Dlo", .dlo)]

instance : JsonForm BasisOrder := ⟨Json.nameIn BasisOrder.table, Json.named? BasisOrder.table⟩

/-- Counts, times and sizes are words of 64 bits. -/
def Json.word? : Json → Option Nat := Json.nat? (2 ^ 64)

def Json.seed? (j : Json) : Option UInt64 := j.word?.map Nat.toUInt64

def Json.ofSeed (seed : UInt64) : Json := .int seed.toNat

instance : JsonForm Counts where
  toJson c := .obj [("counts", .obj (c.entries.map fun (o, n) => (o, .int n)))]
  ofJson? j := do
    let r ← j.record? ["counts"]
    let members ← r.required "counts" Json.members?
    let entries ← members.mapM fun (o, n) => n.word?.map fun n => (o, n)
    some ⟨entries.foldl (fun sorted (o, n) => (Counts.addTo o n (sorted.filter (·.1 ≠ o)))) []⟩

/-- Bits of a row are bytes. -/
def ShotTable.row? : Json → Option (List Nat) := Json.listOf? (Json.nat? 256)

instance : JsonForm ShotTable where
  toJson t :=
    .obj [("width", .int t.width), ("rows", Json.ofList (Json.ofList Json.ofNat) t.rows)]
  ofJson? j := do
    let r ← j.record? ["width", "rows"]
    some ⟨← r.required "width" Json.word?, ← r.required "rows" (Json.listOf? ShotTable.row?)⟩

instance : JsonForm Metadata where
  toJson m :=
    .obj ([("backend", .str m.backend), ("num_qubits", .int m.numQubits)] ++
      Json.present "execution_time_ms" (m.milliseconds.map Json.ofNat) ++
      Json.present "seed" (m.seed.map Json.ofSeed))
  ofJson? j := do
    let r ← j.record? ["backend", "num_qubits", "execution_time_ms", "seed"]
    some ⟨← r.required "backend" Json.string?, ← r.required "num_qubits" Json.word?,
      ← r.optional "execution_time_ms" Json.word?, ← r.optional "seed" Json.seed?⟩

variable {α : Type} [DecimalText α]

instance : JsonForm (Cplx α) where
  toJson a := Json.pair (Json.ofScalar a.re) (Json.ofScalar a.im)
  ofJson? j := (Json.pair? Json.scalar? Json.scalar? j).map fun (re, im) => ⟨re, im⟩

instance : JsonForm (ResultData α) where
  toJson
    | .stateVector amplitudes => Json.tagged "StateVector" (Json.ofList toJson amplitudes)
    | .densityMatrix elements => Json.tagged "DensityMatrix" (Json.ofList toJson elements)
    | .shots table => Json.tagged "Shots" (toJson table)
    | .expectation value => Json.tagged "Expectation" (Json.ofScalar value)
  ofJson? j :=
    match j.choice? with
    | some ("StateVector", some payload) => (Json.listOf? ofJson? payload).map .stateVector
    | some ("DensityMatrix", some payload) => (Json.listOf? ofJson? payload).map .densityMatrix
    | some ("Shots", some payload) => (ofJson? payload).map .shots
    | some ("Expectation", some payload) => (Json.scalar? payload).map .expectation
    | _ => none

instance : JsonForm (ExecutionResult α) where
  toJson r := .obj [("data", toJson r.data), ("metadata", toJson r.metadata)]
  ofJson? j := do
    let r ← j.record? ["data", "metadata"]
    some ⟨← r.required "data" ofJson?, ← r.required "metadata" ofJson?⟩

end KetSim

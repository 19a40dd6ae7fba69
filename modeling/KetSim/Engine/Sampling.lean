import KetSim.Random
import KetSim.Scalar

/-! # Sampling

Draws of indices with given probabilities: a draw from the unit interval, scaled
by the total, falls into one of the steps of the running sums.
-/
namespace KetSim.Engine

variable {α : Type} [Scalar α]

/-- Running sums of the clamped entries. -/
def runningSums (start : α) (probabilities : List α) : List α :=
  (probabilities.scanl (fun total p => total + Scalar.clamp p) start).tail

@[simp] theorem length_runningSums (start : α) (probabilities : List α) :
    (runningSums start probabilities).length = probabilities.length := by
  simp [runningSums]

theorem runningSums_cons (start p : α) (rest : List α) :
    runningSums start (p :: rest) =
      (start + Scalar.clamp p) :: runningSums (start + Scalar.clamp p) rest := by
  cases rest <;> simp [runningSums]

/-- The number of leading entries for which the test holds, given that they come first. -/
def partitionPoint (test : α → Bool) (sums : Array α) (low high : Nat) : Nat :=
  if low < high then
    let mid := (low + high) / 2
    if test (sums.getD mid 0) then partitionPoint test sums (mid + 1) high
    else partitionPoint test sums low mid
  else low
termination_by high - low
decreasing_by all_goals omega

/-- The index whose step holds the scaled draw, and the last index beyond all steps. -/
def pick (sums : Array α) (total draw : α) : Nat :=
  let r := draw * total
  min (partitionPoint (Scalar.atMost · r) sums 0 sums.size) (sums.size - 1)

/-- One index for each draw; without probabilities there is none. -/
def pickAll (probabilities : List α) (draws : List α) : List Nat :=
  let sums := (runningSums 0 probabilities).toArray
  match sums.back? with
  | some total => draws.map (pick sums total)
  | none => []

/-- A fraction of the unit interval with 53 bits. -/
def unitDraw (numerator : Nat) : α := Scalar.ofNat numerator / Scalar.ofNat (2 ^ 53)

def sample (probabilities : List α) (shots : Nat) (seed : UInt64) : List Nat :=
  pickAll probabilities ((Random.draws seed shots).map unitDraw)

end KetSim.Engine

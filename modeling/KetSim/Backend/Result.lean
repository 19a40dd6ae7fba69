import KetSim.Cplx

/-! # Results

State vectors and density matrices are kept in increasing lexicographic order:
the first qubit is the most significant bit of an index. Rows of shots list the
classical bits in the order of their declaration.
-/
namespace KetSim

/-! ## Basis orders -/

/-- Whether the first qubit is the most or the least significant bit of an index. -/
inductive BasisOrder where
  | ilo | dlo
  deriving DecidableEq, Repr

def reverseBits (index n : Nat) : Nat :=
  (List.range n).foldl (fun acc k => acc ||| ((index >>> k) &&& 1) <<< (n - 1 - k)) 0

/-- The place in this order of an index of the increasing one. -/
def BasisOrder.place (order : BasisOrder) (index n : Nat) : Nat :=
  match order with
  | ilo => index
  | dlo => reverseBits index n

/-! ## Counts -/

/-- The last one of the greatest elements. -/
def maxBy? {β : Type} (cmp : β → β → Ordering) : List β → Option β
  | [] => none
  | x :: rest => some (rest.foldl (fun best y => if cmp best y = .gt then best else y) x)

/-- How often each outcome occurred, by ascending outcome. -/
structure Counts where
  entries : List (String × Nat)
  deriving DecidableEq, Repr

namespace Counts

def empty : Counts := ⟨[]⟩

def addTo (outcome : String) (count : Nat) : List (String × Nat) → List (String × Nat)
  | [] => [(outcome, count)]
  | (o, n) :: rest =>
    if outcome = o then (o, n + count) :: rest
    else if outcome < o then (outcome, count) :: (o, n) :: rest
    else (o, n) :: addTo outcome count rest

def insert (c : Counts) (outcome : String) (count : Nat) : Counts :=
  ⟨addTo outcome count c.entries⟩

def get (c : Counts) (outcome : String) : Nat := (c.entries.lookup outcome).getD 0

def total (c : Counts) : Nat := c.entries.foldr (fun entry n => entry.2 + n) 0

def size (c : Counts) : Nat := c.entries.length

def isEmpty (c : Counts) : Bool := c.entries.isEmpty

/-- Entries by their counts, and by their outcomes the other way round where the counts are
equal. -/
def compareEntries (a b : String × Nat) : Ordering := (compare a.2 b.2).then (compare b.1 a.1)

/-- The most frequent outcome, the least one of equally frequent ones. -/
def mostFrequent? (c : Counts) : Option (String × Nat) := maxBy? compareEntries c.entries

@[simp] theorem total_insert (c : Counts) (outcome : String) (count : Nat) :
    (c.insert outcome count).total = c.total + count := by
  rcases c with ⟨entries⟩
  simp only [insert, total]
  induction entries with
  | nil => simp [addTo]
  | cons head rest ih => grind [addTo]

end Counts

/-! ## Shots -/

/-- One row for each shot and one column for each classical bit. -/
structure ShotTable where
  width : Nat
  rows : List (List Nat)
  deriving DecidableEq, Repr

namespace ShotTable

/-- The rows with the first bit in front, or at the back. -/
def rowsIn (t : ShotTable) : BasisOrder → List (List Nat)
  | .ilo => t.rows
  | .dlo => t.rows.map List.reverse

/-- The outcome that a row spells; every bit but zero counts as one. -/
def spelling (row : List Nat) : String :=
  String.ofList (row.map fun b => if b = 0 then '0' else '1')

/-- Counts the rows, those of the greatest outcome first: each one then enters at the head of
the entries. -/
def counts (t : ShotTable) : Counts :=
  ((t.rows.map spelling).mergeSort (· ≥ ·)).foldl (fun c outcome => c.insert outcome 1) .empty

end ShotTable

/-! ## Executions -/

inductive ResultData (α : Type) where
  | stateVector (amplitudes : List (Cplx α))
  | densityMatrix (elements : List (Cplx α))
  | shots (table : ShotTable)
  | expectation (value : α)
  deriving BEq, Repr

structure Metadata where
  backend : String
  numQubits : Nat
  milliseconds : Option Nat := none
  seed : Option UInt64 := none
  deriving DecidableEq, Repr

structure ExecutionResult (α : Type) where
  data : ResultData α
  metadata : Metadata
  deriving BEq, Repr

/-- Moves each entry to its place; a place that nothing moves to holds zero. -/
def scatter {α : Type} [Scalar α] (place : Nat → Nat) (entries : List (Cplx α)) : List (Cplx α) :=
  (entries.zipIdx.foldl (fun out (x, i) => out.setIfInBounds (place i) x)
    (Array.replicate entries.length 0)).toList

namespace ExecutionResult

variable {α : Type}

def stateVector? [Scalar α] (r : ExecutionResult α) (order : BasisOrder) : Option (List (Cplx α)) :=
  match r.data with
  | .stateVector amplitudes =>
    some (scatter (fun i => order.place i r.metadata.numQubits) amplitudes)
  | _ => none

/-- The elements row by row, with rows and columns in the given order. -/
def densityMatrix? [Scalar α] (r : ExecutionResult α) (order : BasisOrder) :
    Option (List (Cplx α)) :=
  match r.data with
  | .densityMatrix elements =>
    let n := r.metadata.numQubits
    let dim := 2 ^ n
    some (scatter (fun k => order.place (k / dim) n * dim + order.place (k % dim) n) elements)
  | _ => none

def shots? (r : ExecutionResult α) : Option ShotTable :=
  match r.data with
  | .shots table => some table
  | _ => none

def counts? (r : ExecutionResult α) : Option Counts := r.shots?.map ShotTable.counts

def expectation? (r : ExecutionResult α) : Option α :=
  match r.data with
  | .expectation value => some value
  | _ => none

end ExecutionResult

end KetSim

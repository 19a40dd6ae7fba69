/-! # Sweeps over a buffer

In-place updates that visit the indices of a buffer once, in ascending order.
Every kernel of the engine is one of them.
-/
namespace KetSim.Engine

variable {β : Type}

/-- Replaces the entries at `i` and `j` by a function of both. -/
def updatePair (step : β → β → β × β) (buffer : Array β) (i j : Nat) : Array β :=
  match buffer[i]?, buffer[j]? with
  | some a, some b =>
    let (a', b') := step a b
    (buffer.setIfInBounds i a').setIfInBounds j b'
  | _, _ => buffer

/-- Updates each selected index together with its partner. -/
def sweepPairs (selected : Nat → Bool) (partner : Nat → Nat) (step : β → β → β × β)
    (buffer : Array β) : Array β :=
  (List.range buffer.size).foldl
    (fun b i => if selected i then updatePair step b i (partner i) else b) buffer

def sweepSwaps (selected : Nat → Bool) (partner : Nat → Nat) (buffer : Array β) : Array β :=
  sweepPairs selected partner (fun a b => (b, a)) buffer

/-- Updates each entry from its index and itself. -/
def sweepEach (step : Nat → β → β) (buffer : Array β) : Array β := buffer.mapIdx step

@[simp] theorem size_updatePair (step : β → β → β × β) (buffer : Array β) (i j : Nat) :
    (updatePair step buffer i j).size = buffer.size := by
  unfold updatePair
  split <;> simp

@[simp] theorem size_sweepPairs (selected : Nat → Bool) (partner : Nat → Nat)
    (step : β → β → β × β) (buffer : Array β) :
    (sweepPairs selected partner step buffer).size = buffer.size := by
  unfold sweepPairs
  generalize List.range buffer.size = indices
  induction indices generalizing buffer with
  | nil => rfl
  | cons i rest ih =>
    rw [List.foldl_cons, ih]
    split <;> simp

@[simp] theorem size_sweepSwaps (selected : Nat → Bool) (partner : Nat → Nat) (buffer : Array β) :
    (sweepSwaps selected partner buffer).size = buffer.size :=
  size_sweepPairs selected partner _ buffer

@[simp] theorem size_sweepEach (step : Nat → β → β) (buffer : Array β) :
    (sweepEach step buffer).size = buffer.size := Array.size_mapIdx

end KetSim.Engine

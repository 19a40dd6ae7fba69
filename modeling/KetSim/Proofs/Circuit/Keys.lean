import KetSim.Circuit.Key
import KetSim.Decimal.Float
import KetSim.Proofs.MachineFloat

/-! # Keys of circuits that compare as equal

The key of a circuit is a digest of its text, so the same circuit always has the
same key. The text of a number tells the two zeros apart and comparison does
not: among circuits with both zeros some compare as equal under different keys,
and among circuits that lack one of them none do.
-/
namespace KetSim.CircuitKey

/-- Comparison tells equality of circuits whose numbers lack one of the two zeros. -/
theorem eq_of_beq_of_lacks {S : Float → Prop} (hS : ¬ (S 0.0 ∧ S (-0.0))) {c d : Circuit Float}
    (hc : c.All S) (hd : d.All S) (h : (c == d) = true) : c = d := by
  refine Circuit.eq_of_beq (fun x y hx hy hxy => ?_) hc hd h
  obtain heq | ⟨rfl, rfl⟩ | ⟨rfl, rfl⟩ := MachineFloat.eq_or_zeros_of_beq hxy
  · exact heq
  · exact absurd ⟨hx, hy⟩ hS
  · exact absurd ⟨hy, hx⟩ hS

/-- One qubit turned by a number. -/
def turn (x : Float) : Circuit Float :=
  { Circuit.withSize "turn" 1 0 with
    instructions := [.ofGate ⟨.standard .rx, [.constant x]⟩ [⟨0⟩]] }

theorem turn_built (x : Float) : (turn x).Built := by
  have happend : (Circuit.withSize "turn" 1 0).appendAll
      [.ofGate ⟨.standard .rx, [.constant x]⟩ [⟨0⟩]] = .ok (turn x) := rfl
  exact (Circuit.Built.withSize "turn" 1 0).appendAll happend

theorem all_turn {S : Float → Prop} (hzero : S 0.0) {x : Float} (hx : S x) : (turn x).All S := by
  have hgates : (turn x).gates = [⟨.standard .rx, [.constant x]⟩] := rfl
  refine ⟨hzero, ?_⟩
  intro g hg e he
  rw [hgates, List.mem_singleton] at hg
  subst hg
  rw [List.mem_singleton] at he
  subst he
  exact hx

theorem turn_zero_beq : (turn 0.0 == turn (-0.0)) = true := by decide +kernel

/-- The text of the turn writes the sign of the zero. -/
theorem of_turn_zero_ne : of (turn 0.0) ≠ of (turn (-0.0)) := by decide +kernel

/-- Comparison settles the key for exactly those numbers that lack one of the two zeros. -/
theorem of_eq_of_beq_iff (S : Float → Prop) :
    (∀ c d : Circuit Float, c.All S → d.All S → (c == d) = true → of c = of d) ↔
      ¬ (S 0.0 ∧ S (-0.0)) := by
  constructor
  · rintro hkeys ⟨hpositive, hnegative⟩
    exact of_turn_zero_ne (hkeys _ _ (all_turn hpositive hpositive) (all_turn hpositive hnegative)
      turn_zero_beq)
  · intro hS c d hc hd h
    rw [eq_of_beq_of_lacks hS hc hd h]

/-- Two circuits of the builder that compare as equal under different keys. -/
theorem of_ne_signed_zero :
    (turn 0.0).Built ∧ (turn (-0.0)).Built ∧ (turn 0.0 == turn (-0.0)) = true ∧
      ¬ (of (turn 0.0) = of (turn (-0.0))) :=
  ⟨turn_built 0.0, turn_built (-0.0), turn_zero_beq, of_turn_zero_ne⟩

end KetSim.CircuitKey

import KetSim.Pauli

/-! # Run modes -/
namespace KetSim

/-- What to compute on the final state of a circuit. -/
inductive RunMode (α : Type) where
  | state
  | shots (count : Nat) (seed : Option UInt64)
  | expectation (op : PauliOperator α)
  deriving BEq, Repr

def RunMode.label {α : Type} : RunMode α → String
  | state => "state"
  | shots _ _ => "shots"
  | expectation _ => "expectation"

end KetSim

/-! # Ranges of characters

Sets of characters as ranges of code points, both ends included, that ascend and
keep apart.
-/
namespace KetSim.Text

abbrev Ranges := Array (Nat × Nat)

namespace Ranges

def contains (ranges : Ranges) (c : Char) : Bool :=
  ranges.any fun (first, last) => first ≤ c.toNat && c.toNat ≤ last

/-- Whether each range starts above the given bound and the ends of the ones before it. -/
def ascendsFrom : Nat → List (Nat × Nat) → Bool
  | _, [] => true
  | bound, (first, last) :: rest => bound ≤ first && first ≤ last && ascendsFrom (last + 1) rest

def ascends (ranges : Ranges) : Bool := ascendsFrom 0 ranges.toList

end Ranges

end KetSim.Text

import KetSim.Cplx
import KetSim.Engine.Options

/-! # Parallel passes

Besides its dense kernel the accelerated device has passes over a list of entries. A
list is halved a few times, the pieces are treated on their own, and the results of
neighbours are joined. Where every entry is treated for itself this is one pass from
the left; a sum is bracketed by the halves.
-/
namespace KetSim.Engine

/-- Halves a list as often as it is told, treats the pieces on their own and joins the results of
neighbours. -/
def forkJoin {β γ : Type} (leaf : List β → γ) (join : γ → γ → γ) : Nat → List β → γ
  | 0, xs => leaf xs
  | depth + 1, xs =>
    if xs.length ≤ 1 then leaf xs
    else
      join (forkJoin leaf join depth (xs.take (xs.length / 2)))
        (forkJoin leaf join depth (xs.drop (xs.length / 2)))

/-- How often work is halved: there is some for eight workers. -/
def forks : Nat := 3

/-- Treats every entry for itself. -/
def mapOn {β γ : Type} (device : Device) (f : β → γ) (xs : List β) : List γ :=
  match device with
  | .cpu => xs.map f
  | .gpu => forkJoin (List.map f) (· ++ ·) forks xs

/-- Sums from the left, or piece by piece. -/
def sumOn {α : Type} [Scalar α] (device : Device) (xs : List (Cplx α)) : Cplx α :=
  match device with
  | .cpu => Cplx.sum xs
  | .gpu => forkJoin Cplx.sum (· + ·) forks xs

theorem forkJoin_map {β γ : Type} (f : β → γ) (depth : Nat) (xs : List β) :
    forkJoin (List.map f) (· ++ ·) depth xs = xs.map f := by
  induction depth generalizing xs with
  | zero => rfl
  | succ depth ih =>
    rw [forkJoin]
    split
    · rfl
    · rw [ih, ih, ← List.map_append, List.take_append_drop]

@[simp] theorem mapOn_eq {β γ : Type} (device : Device) (f : β → γ) (xs : List β) :
    mapOn device f xs = xs.map f := by
  cases device with
  | cpu => rfl
  | gpu => exact forkJoin_map f forks xs

end KetSim.Engine

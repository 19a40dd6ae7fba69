import Mathlib
import KetSim.Proofs.Backend.Orders
import KetSim.Proofs.Engine.CheckedKernel
import KetSim.Proofs.Engine.Density
import KetSim.Proofs.Lowering.Offsets

/-! # Results in decreasing order

Results are filled by writing each entry to the place of its index, so an index that
two entries went to would lose one of them. Reversing bits is its own inverse on the
indices of a register: entries only change places in pairs, in a state vector and in
the rows and columns of a density matrix alike.
-/
namespace KetSim

/-! ## Reversed indices -/

theorem reverseBits_reverseBits {n x : ℕ} (hx : x < 2 ^ n) :
    reverseBits (reverseBits x n) n = x := by
  apply Nat.eq_of_testBit_eq
  intro p
  rw [testBit_reverseBits, testBit_reverseBits]
  by_cases hp : p < n
  · have hback : n - 1 - (n - 1 - p) = p := by omega
    have hlt : n - 1 - p < n := by omega
    simp [hp, hlt, hback]
  · have hhigh : x < 2 ^ p := hx.trans_le (Nat.pow_le_pow_right two_pos (not_lt.mp hp))
    simp [hp, Nat.testBit_lt_two_pow hhigh]

/-- A shift to the right in words of some width, unless it is as long as the word. -/
def shiftRight? (width x k : ℕ) : Option ℕ :=
  if k < width then some (x >>> k) else none

/-- A shift to the left, which loses the bits beyond the word, unless it is as long as the word. -/
def shiftLeft? (width x k : ℕ) : Option ℕ :=
  if k < width then some ((x <<< k) % 2 ^ width) else none

/-- The reversal in words of some width, with its shifts and subtractions checked. -/
def reverseBits? (width index n : ℕ) : Option ℕ :=
  (List.range n).foldlM (fun acc k => do
    let shifted ← shiftRight? width index k
    let last ← difference? n 1
    let place ← difference? last k
    let moved ← shiftLeft? width (shifted &&& 1) place
    some (acc ||| moved)) 0

theorem shiftLeft?_bit {width k : ℕ} (x : ℕ) (hk : k < width) :
    shiftLeft? width (x &&& 1) k = some ((x &&& 1) <<< k) := by
  have hbit : x &&& 1 ≤ 1 := Nat.and_le_right
  have hfits : (x &&& 1) <<< k < 2 ^ width := by
    calc (x &&& 1) <<< k = (x &&& 1) * 2 ^ k := Nat.shiftLeft_eq ..
      _ ≤ 1 * 2 ^ k := Nat.mul_le_mul_right _ hbit
      _ = 2 ^ k := one_mul _
      _ < 2 ^ width := Nat.pow_lt_pow_right one_lt_two hk
  rw [shiftLeft?, if_pos hk, Nat.mod_eq_of_lt hfits]

/-- No shift or subtraction of a reversal fails in words that have a bit for each bit of the
index. -/
theorem reverseBits?_eq {width n : ℕ} (hn : n ≤ width) (x : ℕ) :
    reverseBits? width x n = some (reverseBits x n) := by
  refine (Engine.foldlM_eq_some (P := fun _ => True) ?_ trivial).1
  intro acc _ k hk
  have hk := List.mem_range.mp hk
  have hshift : shiftRight? width x k = some (x >>> k) := if_pos (by omega)
  have hlast : difference? n 1 = some (n - 1) := if_pos (by omega)
  have hplace : difference? (n - 1) k = some (n - 1 - k) := if_pos (by omega)
  have hmoved := shiftLeft?_bit (x >>> k) (show n - 1 - k < width by omega)
  simp only [hshift, hlast, hplace, hmoved, Option.bind_eq_bind, Option.bind_some, and_self]

/-! ## Places in pairs -/

/-- Each place below the size is the place of the index that has its own place. -/
structure Swaps (place : ℕ → ℕ) (size : ℕ) : Prop where
  lt : ∀ i < size, place i < size
  back : ∀ i < size, place (place i) = i

/-- An element of a matrix stands in a row and a column. -/
theorem exists_row_column {k size : ℕ} (hk : k < size * size) :
    ∃ r < size, ∃ c < size, k = r * size + c := by
  have hrow : k / size < size := Nat.div_lt_of_lt_mul hk
  have hcol : k % size < size := Nat.mod_lt _ (Nat.zero_lt_of_lt hrow)
  exact ⟨k / size, hrow, k % size, hcol, (Nat.div_add_mod' k size).symm⟩

theorem swaps_reverseBits (n : ℕ) : Swaps (fun x => reverseBits x n) (2 ^ n) where
  lt x _ := reverseBits_lt x n
  back _ hx := reverseBits_reverseBits hx

namespace Swaps

variable {place : ℕ → ℕ} {size : ℕ}

theorem bijOn (h : Swaps place size) : Set.BijOn place (Set.Iio size) (Set.Iio size) := by
  have hinv : Set.InvOn place place (Set.Iio size) (Set.Iio size) := ⟨h.back, h.back⟩
  exact hinv.bijOn h.lt h.lt

def perm (h : Swaps place size) : Equiv.Perm (Fin size) :=
  Function.Involutive.toPerm (fun i => ⟨place i, h.lt i i.isLt⟩) fun i => Fin.ext (h.back i i.isLt)

/-- Rows and columns that change places move the elements of a matrix in pairs. -/
theorem pairs (h : Swaps place size) :
    Swaps (fun k => place (k / size) * size + place (k % size)) (size * size) where
  lt k hk := by
    obtain ⟨r, hr, c, hc, rfl⟩ := exists_row_column hk
    simp only [Engine.mul_add_div_right_of_lt hc, Nat.mul_add_mod_of_lt hc]
    exact Engine.mul_add_lt_mul (h.lt r hr) (h.lt c hc)
  back k hk := by
    obtain ⟨r, hr, c, hc, rfl⟩ := exists_row_column hk
    have hplace := h.lt c hc
    simp only [Engine.mul_add_div_right_of_lt hc, Nat.mul_add_mod_of_lt hc,
      Engine.mul_add_div_right_of_lt hplace, Nat.mul_add_mod_of_lt hplace, h.back r hr, h.back c hc]

variable {α : Type} [Scalar α] {entries : List (Cplx α)}

theorem getElem?_scatter (h : Swaps place size) (hs : entries.length = size) {i : ℕ}
    (hi : i < size) : (scatter place entries)[i]? = entries[place i]? := by
  subst hs
  have hnodup : ((List.range entries.length).map place).Nodup := by
    apply List.nodup_range.map_on
    intro x hx y hy hxy
    exact h.bijOn.injOn (List.mem_range.mp hx) (List.mem_range.mp hy) hxy
  have hmoved := KetSim.getElem?_scatter hnodup (h.lt i hi) ((h.back i hi).symm ▸ hi)
  rwa [h.back i hi] at hmoved

theorem scatter_perm (h : Swaps place size) (hs : entries.length = size) :
    (scatter place entries).Perm entries := by
  subst hs
  have hmoved : scatter place entries = List.ofFn (entries.get ∘ h.perm) := by
    apply List.ext_getElem
    · rw [length_scatter, List.length_ofFn]
    · intro i hi hi'
      rw [length_scatter] at hi
      apply Option.some.inj
      rw [← List.getElem?_eq_getElem, h.getElem?_scatter rfl hi,
        List.getElem?_eq_getElem (h.lt i hi), List.getElem_ofFn]
      rfl
  calc scatter place entries = List.ofFn (entries.get ∘ h.perm) := hmoved
    List.Perm _ (List.ofFn entries.get) := Equiv.Perm.ofFn_comp_perm _ _
    _ = entries := List.ofFn_get entries

theorem scatter_scatter (h : Swaps place size) (hs : entries.length = size) :
    scatter place (scatter place entries) = entries := by
  have hs' : (scatter place entries).length = size := by rw [length_scatter, hs]
  apply List.ext_getElem?
  intro i
  by_cases hi : i < size
  · rw [h.getElem?_scatter hs' hi, h.getElem?_scatter hs (h.lt i hi), h.back i hi]
  · rw [List.getElem?_eq_none (by rw [length_scatter]; omega), List.getElem?_eq_none (by omega)]

end Swaps

/-! ## Matrices row by row -/

/-- The square matrix with these elements row by row. -/
def matrixOf {α : Type} [Scalar α] (size : ℕ) (elements : List (Cplx α)) :
    Matrix (Fin size) (Fin size) (Cplx α) :=
  .of fun r c => elements.getD (r * size + c) 0

section Matrices

variable {α : Type} [Scalar α] {place : ℕ → ℕ} {size : ℕ}

/-- The row and the column of each element change places. -/
theorem Swaps.matrixOf_scatter (h : Swaps place size) {elements : List (Cplx α)}
    (hs : elements.length = size * size) :
    matrixOf size (scatter (fun k => place (k / size) * size + place (k % size)) elements) =
      (matrixOf size elements).submatrix h.perm h.perm := by
  ext r c
  have hmoved := h.pairs.getElem?_scatter hs (Engine.mul_add_lt_mul r.isLt c.isLt)
  simp only [Engine.mul_add_div_right_of_lt c.isLt, Nat.mul_add_mod_of_lt c.isLt] at hmoved
  rw [matrixOf, Matrix.of_apply, List.getD_eq_getElem?_getD, hmoved, ← List.getD_eq_getElem?_getD]
  rfl

theorem trace_submatrix_perm {β : Type} [AddCommMonoid β] (σ : Equiv.Perm (Fin size))
    (M : Matrix (Fin size) (Fin size) β) : (M.submatrix σ σ).trace = M.trace :=
  Equiv.sum_comp σ fun i => M i i

namespace Engine

theorem outerProduct_eq (xs : List (Cplx α)) :
    outerProduct xs = (List.range (xs.length * xs.length)).map fun k =>
      xs.getD (k / xs.length) 0 * (xs.getD (k % xs.length) 0).conj := by
  have hxs : xs = (List.range xs.length).map fun i => xs.getD i 0 := by
    apply List.ext_getElem
    · rw [List.length_map, List.length_range]
    · intro i hi _
      simp [hi]
  rw [map_range_mul fun r c => xs.getD r 0 * (xs.getD c 0).conj, outerProduct]
  conv_lhs => rw [hxs]
  simp only [List.flatMap_map, List.map_map]
  rfl

theorem getElem?_outerProduct {xs : List (Cplx α)} (hs : xs.length = size) {r c : ℕ}
    (hr : r < size) (hc : c < size) :
    (outerProduct xs)[r * size + c]? = some (xs.getD r 0 * (xs.getD c 0).conj) := by
  subst hs
  rw [outerProduct_eq, List.getElem?_map, List.getElem?_range (mul_add_lt_mul hr hc),
    Option.map_some, mul_add_div_right_of_lt hc, Nat.mul_add_mod_of_lt hc]

theorem length_outerProduct (xs : List (Cplx α)) :
    (outerProduct xs).length = xs.length * xs.length := by
  rw [outerProduct_eq, List.length_map, List.length_range]

/-- Entries may change places before or after the outer product is taken. -/
theorem scatter_outerProduct (h : Swaps place size) {xs : List (Cplx α)} (hs : xs.length = size) :
    scatter (fun k => place (k / size) * size + place (k % size)) (outerProduct xs) =
      outerProduct (scatter place xs) := by
  have hlength : (outerProduct xs).length = size * size := by rw [length_outerProduct, hs]
  have hs' : (scatter place xs).length = size := by rw [length_scatter, hs]
  have hentry {i : ℕ} (hi : i < size) : (scatter place xs).getD i 0 = xs.getD (place i) 0 := by
    rw [List.getD_eq_getElem?_getD, h.getElem?_scatter hs hi, List.getD_eq_getElem?_getD]
  apply List.ext_getElem?
  intro k
  by_cases hk : k < size * size
  · obtain ⟨r, hr, c, hc, rfl⟩ := exists_row_column hk
    rw [h.pairs.getElem?_scatter hlength hk, getElem?_outerProduct hs' hr hc, hentry hr, hentry hc]
    simp only [mul_add_div_right_of_lt hc, Nat.mul_add_mod_of_lt hc]
    exact getElem?_outerProduct hs (h.lt r hr) (h.lt c hc)
  · have hleft : (scatter (fun k => place (k / size) * size + place (k % size))
        (outerProduct xs)).length = size * size := by rw [length_scatter, hlength]
    have hright : (outerProduct (scatter place xs)).length = size * size := by
      rw [length_outerProduct, hs']
    rw [List.getElem?_eq_none (by omega), List.getElem?_eq_none (by omega)]

end Engine

end Matrices

/-! ## Results -/

namespace ExecutionResult

variable {α : Type} [Scalar α]

theorem stateVector?_dlo {m : Metadata} {n : ℕ} (hm : m.numQubits = n)
    (amplitudes : List (Cplx α)) :
    stateVector? ⟨.stateVector amplitudes, m⟩ .dlo =
      some (scatter (fun x => reverseBits x n) amplitudes) := by
  subst hm
  rfl

theorem densityMatrix?_dlo {m : Metadata} {n : ℕ} (hm : m.numQubits = n)
    (elements : List (Cplx α)) :
    densityMatrix? ⟨.densityMatrix elements, m⟩ .dlo =
      some (scatter (fun k => reverseBits (k / 2 ^ n) n * 2 ^ n + reverseBits (k % 2 ^ n) n)
        elements) := by
  subst hm
  rfl

/-- Decreasing order loses nothing of a result. The bits of an index are reversed without a shift
or a difference out of range, in words that hold the indices, and reversing them again gives the
index back. A state vector then has each amplitude once, at the reversed index, and a density
matrix has its rows and its columns exchanged alike, whatever the arithmetic of the scalars is. -/
theorem dlo_loses_nothing (n : ℕ) :
    Set.BijOn (fun x => reverseBits x n) (Set.Iio (2 ^ n)) (Set.Iio (2 ^ n)) ∧
    (∀ x < 2 ^ n, reverseBits (reverseBits x n) n = x) ∧
    (∀ width x, n ≤ width → reverseBits? width x n = some (reverseBits x n)) ∧
    (∀ (amplitudes : List (Cplx α)) (m : Metadata), m.numQubits = n → amplitudes.length = 2 ^ n →
      ∃ moved, stateVector? ⟨.stateVector amplitudes, m⟩ .dlo = some moved ∧
        moved.length = 2 ^ n ∧ moved.Perm amplitudes ∧
        (∀ x < 2 ^ n, moved[reverseBits x n]? = amplitudes[x]?) ∧
        stateVector? ⟨.stateVector moved, m⟩ .dlo = some amplitudes ∧
        densityMatrix? ⟨.densityMatrix (Engine.outerProduct amplitudes), m⟩ .dlo =
          some (Engine.outerProduct moved)) ∧
    ∀ (elements : List (Cplx α)) (m : Metadata), m.numQubits = n →
      elements.length = 2 ^ n * 2 ^ n →
      ∃ moved, densityMatrix? ⟨.densityMatrix elements, m⟩ .dlo = some moved ∧
        moved.length = 2 ^ n * 2 ^ n ∧ moved.Perm elements ∧
        matrixOf (2 ^ n) moved = (matrixOf (2 ^ n) elements).submatrix
          (swaps_reverseBits n).perm (swaps_reverseBits n).perm ∧
        densityMatrix? ⟨.densityMatrix moved, m⟩ .dlo = some elements ∧
        ∀ value : Cplx α → ℂ,
          ((matrixOf (2 ^ n) moved).map value).trace =
            ((matrixOf (2 ^ n) elements).map value).trace ∧
          (((matrixOf (2 ^ n) moved).map value).IsHermitian ↔
            ((matrixOf (2 ^ n) elements).map value).IsHermitian) := by
  have hswaps := swaps_reverseBits n
  refine ⟨hswaps.bijOn, hswaps.back, fun width x hn => reverseBits?_eq hn x, ?_, ?_⟩
  · intro amplitudes m hm hlength
    refine ⟨_, stateVector?_dlo hm amplitudes, ?_, hswaps.scatter_perm hlength, ?_, ?_, ?_⟩
    · rw [length_scatter, hlength]
    · intro x hx
      have hmoved := hswaps.getElem?_scatter hlength (hswaps.lt x hx)
      rwa [hswaps.back x hx] at hmoved
    · rw [stateVector?_dlo hm, hswaps.scatter_scatter hlength]
    · rw [densityMatrix?_dlo hm, Engine.scatter_outerProduct hswaps hlength]
  · intro elements m hm hlength
    have hmatrix := hswaps.matrixOf_scatter hlength
    refine ⟨_, densityMatrix?_dlo hm elements, ?_, hswaps.pairs.scatter_perm hlength, hmatrix,
      ?_, ?_⟩
    · rw [length_scatter, hlength]
    · rw [densityMatrix?_dlo hm, hswaps.pairs.scatter_scatter hlength]
    · intro value
      rw [hmatrix, ← Matrix.submatrix_map]
      exact ⟨trace_submatrix_perm _ _, Matrix.isHermitian_submatrix_equiv _⟩

/-- The second of two qubits is set: the amplitude moves from place 1 to place 2, and so does the
element of its density matrix from row and column 1. -/
theorem dlo_loses_nothing_second_qubit :
    let m : Metadata := ⟨"test", 2, none, none⟩
    stateVector? ⟨.stateVector [0, 1, 0, (0 : Cplx ℝ)], m⟩ .dlo = some [0, 0, 1, 0] ∧
      stateVector? ⟨.stateVector [0, 0, 1, (0 : Cplx ℝ)], m⟩ .dlo = some [0, 1, 0, 0] ∧
      densityMatrix? ⟨.densityMatrix (Engine.outerProduct [0, 1, 0, (0 : Cplx ℝ)]), m⟩ .dlo =
        some (Engine.outerProduct [0, 0, 1, 0]) := by
  intro m
  obtain ⟨-, -, -, hstate, -⟩ := dlo_loses_nothing (α := ℝ) 2
  obtain ⟨moved, hmoved, -, -, -, hback, houter⟩ := hstate [0, 1, 0, 0] m rfl rfl
  have hplaces : stateVector? ⟨.stateVector [0, 1, 0, (0 : Cplx ℝ)], m⟩ .dlo =
      some [0, 0, 1, 0] := by
    have hn : m.numQubits = 2 := rfl
    simp [stateVector?_dlo hn, scatter, reverseBits, List.range_succ]
  obtain rfl := Option.some.inj (hmoved.symm.trans hplaces)
  exact ⟨hmoved, hback, houter⟩

end ExecutionResult

end KetSim

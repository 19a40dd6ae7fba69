import KetSim.Proofs.Ket

/-! # Kets on two registers

The bits below a position and those from it on belong to one register each. A
matrix on the bits of one register acts on the factor of that register.
-/
namespace KetSim

namespace Ket

def low (n : ℕ) (y : ℕ → Bool) : ℕ → Bool := fun p => decide (p < n) && y p

def high (n : ℕ) (y : ℕ → Bool) : ℕ → Bool := fun p => y (p + n)

/-- One ket on the bits below position `n` and another on those above. -/
noncomputable def tensor (n : ℕ) (ψ φ : Ket ℕ) : Ket ℕ := fun y => ψ (low n y) * φ (high n y)

noncomputable def conj {ι : Type} (ψ : Ket ι) : Ket ι := fun x => starRingEnd ℂ (ψ x)

variable {n : ℕ} {names : List ℕ}

theorem low_update {q : ℕ} (hq : q < n) (y : ℕ → Bool) (b : Bool) :
    low n (Function.update y q b) = Function.update (low n y) q b := by
  funext p
  by_cases hp : p = q
  · subst hp
    simp [low, hq]
  · simp [low, hp]

theorem high_update_of_lt {q : ℕ} (hq : q < n) (y : ℕ → Bool) (b : Bool) :
    high n (Function.update y q b) = high n y := by
  funext p
  exact Function.update_of_ne (by omega) _ _

theorem low_update_add (q : ℕ) (y : ℕ → Bool) (b : Bool) :
    low n (Function.update y (q + n) b) = low n y := by
  funext p
  by_cases hp : p < n
  · have hne : p ≠ q + n := by omega
    simp [low, hp, hne]
  · simp [low, hp]

theorem high_update_add (q : ℕ) (y : ℕ → Bool) (b : Bool) :
    high n (Function.update y (q + n) b) = Function.update (high n y) q b := by
  funext p
  by_cases hp : p = q
  · subst hp
    simp [high]
  · simp [high, hp]

theorem scatter_low (hn : ∀ q ∈ names, q < n) (y : ℕ → Bool) (l : ℕ) :
    low n (scatter y names l) = scatter (low n y) names l ∧
      high n (scatter y names l) = high n y := by
  induction names generalizing y l with
  | nil => exact ⟨rfl, rfl⟩
  | cons q rest ih =>
    have hq := hn q List.mem_cons_self
    obtain ⟨h1, h2⟩ := ih (fun p hp => hn p (List.mem_cons_of_mem q hp))
      (Function.update y q (l.testBit 0)) (l / 2)
    rw [scatter, scatter, h1, h2, low_update hq, high_update_of_lt hq]
    exact ⟨rfl, rfl⟩

theorem scatter_high (names : List ℕ) (y : ℕ → Bool) (l : ℕ) :
    low n (scatter y (names.map (· + n)) l) = low n y ∧
      high n (scatter y (names.map (· + n)) l) = scatter (high n y) names l := by
  induction names generalizing y l with
  | nil => exact ⟨rfl, rfl⟩
  | cons q rest ih =>
    obtain ⟨h1, h2⟩ := ih (Function.update y (q + n) (l.testBit 0)) (l / 2)
    rw [List.map_cons, scatter, scatter, h1, h2, low_update_add, high_update_add]
    exact ⟨rfl, rfl⟩

theorem gather_map_add (names : List ℕ) (y : ℕ → Bool) :
    gather y (names.map (· + n)) = gather (high n y) names := by
  induction names with
  | nil => rfl
  | cons q rest ih => rw [List.map_cons, gather, gather, ih]; rfl

/-- A matrix on low bits acts on the first factor. -/
theorem dense_tensor_low (hn : ∀ q ∈ names, q < n) (E : ℕ → ℕ → ℂ) (ψ φ : Ket ℕ) :
    dense E names (tensor n ψ φ) = tensor n (dense E names ψ) φ := by
  funext y
  have hgather : gather y names = gather (low n y) names :=
    gather_congr fun q hq => by simp [low, hn q hq]
  simp only [dense, tensor, Finset.sum_mul]
  apply Finset.sum_congr rfl
  intro l _
  rw [(scatter_low hn y l).1, (scatter_low hn y l).2, hgather, mul_assoc]

theorem dense_tensor_high (E : ℕ → ℕ → ℂ) (names : List ℕ) (ψ φ : Ket ℕ) :
    dense E (names.map (· + n)) (tensor n ψ φ) = tensor n ψ (dense E names φ) := by
  funext y
  simp only [dense, tensor, Finset.mul_sum, List.length_map]
  apply Finset.sum_congr rfl
  intro l _
  rw [(scatter_high names y l).1, (scatter_high names y l).2, gather_map_add]
  ring

theorem dense_conj (E : ℕ → ℕ → ℂ) (names : List ℕ) (ψ : Ket ℕ) :
    dense (fun r c => starRingEnd ℂ (E r c)) names (conj ψ) = conj (dense E names ψ) := by
  funext y
  simp only [dense, conj, map_sum, map_mul]

end Ket

end KetSim

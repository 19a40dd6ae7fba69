import KetSim.Proofs.Circuit.Names
import KetSim.Proofs.Circuit.Reversible
import KetSim.Proofs.Lowering.Supported

/-! # Entangled chains

A Hadamard gate on the first qubit of a chain leaves two assignments of bits with the
same amplitude. The controlled not gates behind it move bits only: they hand the set
bit on from each qubit to the next one, so the chain ends with all bits clear or all
bits set.
-/
namespace KetSim

/-! ## Balanced kets -/

namespace Ket

variable {ι : Type}

/-- Two assignments with the same amplitude. -/
noncomputable def balanced (a : ℂ) (u v : ι → Bool) : Ket ι := fun x => a * (basis u x + basis v x)

variable [DecidableEq ι]

theorem onQubit_hadamard_zero (q : ι) :
    onQubit ((1 / √2 : ℂ) • !![1, 1; 1, -1]) q zero =
      balanced (1 / √2) (fun _ => false) (Function.update (fun _ => false) q true) := by
  classical
  have hset (x : ι → Bool) : Function.update x q true ≠ fun _ => false := fun h => by
    simpa using congrFun h q
  have hclear (x : ι → Bool) : basis (fun _ => false) (Function.update x q false) =
      basis (fun _ => false) x + basis (Function.update (fun _ => false) q true) x := by
    cases hx : x q with
    | false =>
      have hself : Function.update x q false = x := by rw [← hx, Function.update_eq_self]
      have hne : x ≠ Function.update (fun _ => false) q true := fun h => by simp [h] at hx
      simp [basis, hself, hne]
    | true =>
      have hne : x ≠ fun _ => false := fun h => by simp [h] at hx
      have hiff : Function.update x q false = (fun _ => false) ↔
          x = Function.update (fun _ => false) q true := by
        constructor
        · intro h
          rw [← h, Function.update_idem, ← hx, Function.update_eq_self]
        · rintro rfl
          rw [Function.update_idem, Function.update_eq_self]
      simp [basis, hne, hiff]
  funext x
  rw [zero_eq_basis, onQubit, Fintype.sum_bool, hclear, balanced, basis, if_neg (hset x)]
  cases x q <;> simp

end Ket

/-! ## Chains -/

namespace Circuit

/-- A reversible run moves both assignments. -/
theorem evolve?_balanced {instructions : List (Instruction ℝ)} {n m : ℕ}
    (hi : ∀ i ∈ instructions, i.Fits n m)
    (hr : ∀ i ∈ instructions, ∀ g, i.kind = .gate g → g.Reversible)
    {a : ℂ} {u v : QubitId → Bool} {φ : Ket QubitId}
    (hφ : evolve? instructions (Ket.balanced a u v) = some φ) :
    φ = Ket.balanced a (instructions.foldl (fun v i => i.move v) u)
      (instructions.foldl (fun v i => i.move v) v) := by
  classical
  obtain ⟨undo, hundo, hiff⟩ := evolve?_moves hi hr hφ
  funext x
  rw [hundo, Ket.balanced, Ket.balanced, Ket.basis, Ket.basis, Ket.basis, Ket.basis]
  simp only [hiff]

section Bits

variable {α : Type}

/-- The bits of the first `n` qubits are set. -/
def below (n : ℕ) : QubitId → Bool := fun q => q.index < n

/-- The links of a chain, each from a qubit to the next one. -/
def links (n : ℕ) : List (Instruction α) :=
  (List.range n).map fun k => .ofGate (.fixed .cx) [⟨k⟩, ⟨k + 1⟩]

theorem below_zero : below 0 = fun _ => false := by
  funext q
  simp [below]

theorem update_below (n : ℕ) : Function.update (below n) ⟨n⟩ true = below (n + 1) := by
  funext q
  by_cases hq : q = ⟨n⟩
  · simp [hq, below]
  · have hne : q.index ≠ n := fun h => hq (h ▸ rfl)
    rw [Function.update_of_ne hq, below, below, decide_eq_decide]
    omega

theorem links_succ (n : ℕ) :
    (links (n + 1) : List (Instruction α)) =
      links n ++ [.ofGate (.fixed .cx) [⟨n⟩, ⟨n + 1⟩]] := by
  rw [links, List.range_succ, List.map_append]
  rfl

theorem foldl_links_clear (n : ℕ) :
    (links n : List (Instruction α)).foldl (fun v i => i.move v) (below 0) = below 0 := by
  induction n with
  | zero => rfl
  | succ n ih =>
    rw [links_succ, List.foldl_append, ih]
    rfl

/-- The first bit is handed on to the end of the links. -/
theorem foldl_links_set (n : ℕ) :
    (links n : List (Instruction α)).foldl (fun v i => i.move v) (below 1) = below (n + 1) := by
  induction n with
  | zero => rfl
  | succ n ih =>
    have hstep : (Instruction.ofGate (.fixed .cx) [⟨n⟩, ⟨n + 1⟩] : Instruction α).move
        (below (n + 1)) = Bits.controlled [⟨n⟩] (Bits.flip ⟨n + 1⟩) (below (n + 1)) := rfl
    rw [links_succ, List.foldl_append, ih, List.foldl_cons, List.foldl_nil, hstep,
      Bits.controlled, if_pos (by simp [below]), Bits.flip, ← update_below (n + 1)]
    simp [below]

theorem foldl_measurements (n : ℕ) (v : QubitId → Bool) :
    (measurements n : List (Instruction α)).foldl (fun v i => i.move v) v = v := by
  unfold measurements
  induction List.range n with
  | nil => rfl
  | cons k rest ih => exact ih

variable [Zero α] {n : ℕ} {c : Circuit α}

theorem phase_ghz (hc : ghz n = .ok c) : c.phase = 0 := by
  unfold ghz at hc
  split at hc
  · exact Except.ok.inj hc ▸ rfl
  · rename_i hn
    obtain ⟨c₁, h₁, hc⟩ := bind_eq_ok.mp hc
    obtain ⟨c₂, h₂, hc⟩ := bind_eq_ok.mp hc
    obtain ⟨g, -, h₁⟩ := bind_eq_ok.mp h₁
    obtain ⟨-, rfl⟩ := append_eq_ok_iff.mp h₁
    obtain ⟨-, rfl⟩ := appendAll_eq_ok.mp h₂
    obtain ⟨-, rfl⟩ := appendAll_eq_ok.mp hc
    simp only [withSize, addQubits, if_neg hn]
    rfl

theorem numQubits_ghz (hc : ghz n = .ok c) : c.numQubits = n := by
  rw [numQubits, (SameWires.ghz hc).qubits, ← numQubits, numQubits_withSize]

theorem numClbits_ghz (hc : ghz n = .ok c) : c.numClbits = n := by
  rw [numClbits, (SameWires.ghz hc).clbits, ← numClbits, numClbits_withSize]

variable [Add α]

theorem instructions_ghz (hn : n ≠ 0) (hc : ghz n = .ok c) : c.instructions =
    .ofGate (.fixed .h) [⟨0⟩] :: (links (n - 1) ++ measurements n) := by
  obtain ⟨d, hd, hinstructions⟩ := ghz_eq_ok (α := α) n
  obtain rfl := Except.ok.inj (hc.symm.trans hd)
  rw [hinstructions, chain, if_neg hn]
  rfl

theorem measure_mem_ghz_iff (hn : n ≠ 0) (hc : ghz n = .ok c) {q : QubitId} {b : ClbitId} :
    .measure q b ∈ c.instructions ↔ ∃ k < n, q = ⟨k⟩ ∧ b = ⟨k⟩ := by
  rw [instructions_ghz hn hc, List.mem_cons, List.mem_append]
  constructor
  · rintro (h | h | h)
    · cases h
    · obtain ⟨k, -, h⟩ := List.mem_map.mp h
      cases h
    · obtain ⟨k, hk, h⟩ := List.mem_map.mp h
      cases h
      exact ⟨k, List.mem_range.mp hk, rfl, rfl⟩
  · rintro ⟨k, hk, rfl, rfl⟩
    exact .inr (.inr (List.mem_map.mpr ⟨k, List.mem_range.mpr hk, rfl⟩))

/-- Every qubit of a chain is read into its own bit. -/
theorem lastInto?_ghz (hc : ghz n = .ok c) {k : ℕ} (hk : k < n) :
    c.lastInto? ⟨k⟩ = some ⟨k⟩ := by
  have hn : n ≠ 0 := by omega
  have hmem := (measure_mem_ghz_iff hn hc).mpr ⟨k, hk, rfl, rfl⟩
  have hread : (c.lastInto? ⟨k⟩).isSome := by
    rw [lastInto?, List.findSome?_isSome_iff]
    exact ⟨_, List.mem_reverse.mpr hmem, by simp [Instruction.target?, Instruction.measure]⟩
  obtain ⟨q, hq⟩ := Option.isSome_iff_exists.mp hread
  obtain ⟨i, hi, hiq⟩ := List.exists_of_findSome?_eq_some hq
  cases ht : i.target? with
  | none => simp [ht] at hiq
  | some target =>
    obtain ⟨p, b⟩ := target
    obtain rfl := Instruction.target?_eq_some.mp ht
    obtain ⟨j, -, rfl, rfl⟩ := (measure_mem_ghz_iff hn hc).mp (List.mem_reverse.mp hi)
    rw [hq]
    simp only [ht, Option.ite_none_right_eq_some, Option.some.injEq] at hiq
    obtain ⟨hjk, rfl⟩ := hiq
    rw [ClbitId.mk.inj hjk]

end Bits

theorem executable_ghz {n : ℕ} (hn : n ≠ 0) {c : Circuit ℝ} (hc : ghz n = .ok c) :
    c.Executable := by
  have hlink (i : Instruction ℝ) (hi : i ∈ links (n - 1)) : i.Runs ∧ i.isMeasure = false := by
    obtain ⟨k, -, rfl⟩ := List.mem_map.mp hi
    exact ⟨⟨rfl, fun e he => absurd he List.not_mem_nil⟩, rfl⟩
  have hmeasure (i : Instruction ℝ) (hi : i ∈ measurements n) :
      i.Runs ∧ ∀ measured, i.Avoids measured := by
    obtain ⟨k, -, rfl⟩ := List.mem_map.mp hi
    exact ⟨trivial, fun _ => trivial⟩
  rw [executable_iff, instructions_ghz hn hc, List.forall_mem_cons, List.forall_mem_append,
    List.pairwise_cons, List.pairwise_append]
  refine ⟨⟨⟨rfl, fun e he => absurd he List.not_mem_nil⟩, fun i hi => (hlink i hi).1,
    fun i hi => (hmeasure i hi).1⟩, ?_, ?_, ?_, ?_⟩
  · exact fun i _ h => absurd h Bool.false_ne_true
  · exact List.pairwise_of_forall_mem_list fun m hm i _ h => by simp [(hlink m hm).2] at h
  · exact List.pairwise_of_forall_mem_list fun m _ i hi _ => (hmeasure i hi).2 _
  · exact fun m _ i hi _ => (hmeasure i hi).2 _

/-- A chain leaves all bits clear or all bits set, with the same amplitude. -/
theorem ket?_ghz {n : ℕ} (hn : n ≠ 0) {c : Circuit ℝ} (hc : ghz n = .ok c) {ψ : Ket QubitId}
    (hψ : c.ket? = some ψ) : ψ = Ket.balanced (1 / √2) (below 0) (below n) := by
  obtain ⟨φ, hφ, rfl⟩ := Option.map_eq_some_iff.mp hψ
  have hfits := (Built.ghz hc).wellFormed.instructions
  rw [instructions_ghz hn hc] at hφ hfits
  obtain ⟨-, hfits⟩ := List.forall_mem_cons.mp hfits
  simp only [evolve?, Option.bind_eq_bind, Option.bind_eq_some_iff] at hφ
  obtain ⟨f, hf, hφ⟩ := hφ
  obtain rfl : Ket.onQubit ((1 / √2 : ℂ) • !![1, 1; 1, -1]) ⟨0⟩ = f := Option.some.inj hf
  rw [Ket.onQubit_hadamard_zero, ← below_zero, update_below] at hφ
  have hreversible : ∀ i ∈ links (n - 1) ++ measurements n, ∀ g : Gate ℝ, i.kind = .gate g →
      g.Reversible := by
    intro i hi g hg
    rcases List.mem_append.mp hi with hi | hi
    · obtain ⟨k, -, rfl⟩ := List.mem_map.mp hi
      cases hg
      exact ⟨.cx, by decide, rfl⟩
    · obtain ⟨k, -, rfl⟩ := List.mem_map.mp hi
      cases hg
  rw [evolve?_balanced hfits hreversible hφ, List.foldl_append, List.foldl_append,
    foldl_measurements, foldl_measurements, foldl_links_clear, foldl_links_set,
    Nat.sub_add_cancel (Nat.pos_of_ne_zero hn), phase_ghz hc]
  funext x
  simp [OneQubit.phase]

end Circuit

end KetSim

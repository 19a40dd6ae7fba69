import KetSim.Engine.Sweep

/-! # Entries after a sweep

A sweep over pairs touches every entry once if the partners of the selected
indices are found by an involution that leaves the selection. Every entry then
is a function of the entries before the sweep.
-/
namespace KetSim.Engine

variable {β : Type}

/-- What a sweep over pairs makes of the entry at an index. -/
def paired (selected : Nat → Bool) (mirror : Nat → Nat) (step : β → β → β × β) (v : Nat → β)
    (x : Nat) : β :=
  if selected x then (step (v x) (v (mirror x))).1
  else if selected (mirror x) then (step (v (mirror x)) (v x)).2
  else v x

theorem getD_updatePair (step : β → β → β × β) (d : β) {buffer : Array β} {i j : Nat}
    (hi : i < buffer.size) (hj : j < buffer.size) (x : Nat) :
    (updatePair step buffer i j).getD x d =
      if x = j then (step (buffer.getD i d) (buffer.getD j d)).2
      else if x = i then (step (buffer.getD i d) (buffer.getD j d)).1
      else buffer.getD x d := by
  have h : updatePair step buffer i j =
      (buffer.setIfInBounds i (step buffer[i] buffer[j]).1).setIfInBounds j
        (step buffer[i] buffer[j]).2 := by
    simp [updatePair, hi, hj]
  rw [h]
  simp only [Array.getD_eq_getD_getElem?, Array.getElem?_setIfInBounds, Array.size_setIfInBounds]
  grind

section Pairs

variable {selected : Nat → Bool} {partner mirror : Nat → Nat}

/-- An index is settled before a bound if its pair has been visited. -/
def settled (selected : Nat → Bool) (mirror : Nat → Nat) (bound x : Nat) : Prop :=
  (selected x = true ∧ x < bound) ∨ (selected (mirror x) = true ∧ mirror x < bound)

instance (bound x : Nat) : Decidable (settled selected mirror bound x) :=
  inferInstanceAs (Decidable (_ ∨ _))

theorem settled_succ (hm : ∀ i, mirror (mirror i) = i) (bound x : Nat) :
    settled selected mirror (bound + 1) x ↔
      settled selected mirror bound x ∨ selected bound = true ∧ (x = bound ∨ x = mirror bound) := by
  have hx : mirror x = bound ↔ x = mirror bound :=
    ⟨fun h => by rw [← h, hm], fun h => by rw [h, hm]⟩
  unfold settled
  grind

theorem size_foldl_updatePair (step : β → β → β × β) (indices : List Nat) (buffer : Array β) :
    (indices.foldl (fun b i => if selected i then updatePair step b i (partner i) else b)
      buffer).size = buffer.size := by
  induction indices generalizing buffer with
  | nil => rfl
  | cons i rest ih =>
    rw [List.foldl_cons, ih]
    split <;> simp

/-- The entries while a sweep is on its way: those of settled indices are final, all others are
untouched. -/
theorem getD_foldl_updatePair (hm : ∀ i, mirror (mirror i) = i)
    (hp : ∀ i, selected i = true → partner i = mirror i)
    (hs : ∀ i, selected i = true → selected (mirror i) = false) (step : β → β → β × β) (d : β)
    {buffer : Array β} (hb : ∀ i < buffer.size, mirror i < buffer.size) {bound : Nat}
    (hbound : bound ≤ buffer.size) (x : Nat) :
    ((List.range bound).foldl
        (fun b i => if selected i then updatePair step b i (partner i) else b) buffer).getD x d =
      if settled selected mirror bound x then paired selected mirror step (buffer.getD · d) x
      else buffer.getD x d := by
  induction bound generalizing x with
  | zero => simp [settled]
  | succ k ih =>
    have ih' := ih (by omega)
    rw [List.range_succ, List.foldl_append, List.foldl_cons, List.foldl_nil]
    have hsize : ((List.range k).foldl
        (fun b i => if selected i then updatePair step b i (partner i) else b) buffer).size =
          buffer.size := size_foldl_updatePair step _ buffer
    revert ih' hsize
    generalize (List.range k).foldl _ buffer = b
    intro ih' hsize
    by_cases hk : selected k = true
    · have hkm := hs k hk
      have hlt : k < b.size := by omega
      have hmlt : mirror k < b.size := by rw [hsize]; exact hb k (by omega)
      -- neither member of the pair has been visited before
      have h1 : ¬settled selected mirror k k := by simp [settled, hkm]
      have h2 : ¬settled selected mirror k (mirror k) := by simp [settled, hkm, hm]
      rw [if_pos hk, hp k hk, getD_updatePair step d hlt hmlt, ih' k, ih' (mirror k), ih' x,
        if_neg h1, if_neg h2]
      by_cases hxm : x = mirror k
      · have : settled selected mirror (k + 1) (mirror k) := by simp [settled, hm, hk]
        subst hxm
        rw [if_pos rfl, if_pos this]
        simp [paired, hkm, hm, hk]
      · by_cases hxk : x = k
        · have : settled selected mirror (k + 1) k := by simp [settled, hk]
          subst hxk
          rw [if_neg hxm, if_pos rfl, if_pos this]
          simp [paired, hk]
        · rw [if_neg hxm, if_neg hxk]
          simp [settled_succ hm, hxm, hxk]
    · rw [if_neg hk, ih' x]
      simp [settled_succ hm, hk]

theorem getD_sweepPairs (mirror : Nat → Nat) (hm : ∀ i, mirror (mirror i) = i)
    (hp : ∀ i, selected i = true → partner i = mirror i)
    (hs : ∀ i, selected i = true → selected (mirror i) = false) (step : β → β → β × β) (d : β)
    {buffer : Array β} (hb : ∀ i < buffer.size, mirror i < buffer.size) {x : Nat}
    (hx : x < buffer.size) :
    (sweepPairs selected partner step buffer).getD x d =
      paired selected mirror step (buffer.getD · d) x := by
  have hmx := hb x hx
  rw [sweepPairs, getD_foldl_updatePair hm hp hs step d hb (Nat.le_refl _)]
  by_cases h : settled selected mirror buffer.size x
  · rw [if_pos h]
  · rw [if_neg h]
    simp only [settled, hx, hmx, and_true, not_or] at h
    rw [paired, if_neg h.1, if_neg h.2]

end Pairs

theorem getD_sweepEach (step : Nat → β → β) (d : β) {buffer : Array β} {x : Nat}
    (hx : x < buffer.size) :
    (sweepEach step buffer).getD x d = step x (buffer.getD x d) := by
  simp [sweepEach, Array.getD_eq_getD_getElem?, hx]

end KetSim.Engine

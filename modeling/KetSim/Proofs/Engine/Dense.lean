import KetSim.Proofs.Engine.Index

/-! # Entries after a dense matrix

Every entry that the dense kernel leaves is a row of the matrix times the group
of the entry before the kernel. The groups are disjoint, so neither their order
nor a cut of the buffer into blocks of whole groups shows. No law of arithmetic
is needed.
-/
namespace KetSim.Engine

variable {α : Type} [Scalar α]

omit [Scalar α] in
theorem getD_setIfInBounds (buffer : Array (Cplx α)) (i x : ℕ) (a d : Cplx α) :
    (buffer.setIfInBounds i a).getD x d =
      if i = x ∧ x < buffer.size then a else buffer.getD x d := by
  simp only [Array.getD_eq_getD_getElem?, Array.getElem?_setIfInBounds]
  grind

omit [Scalar α] in
theorem getD_toList (buffer : Array (Cplx α)) (x : ℕ) (d : Cplx α) :
    buffer.toList.getD x d = buffer.getD x d := by
  rw [List.getD_eq_getElem?_getD, Array.getElem?_toList, Array.getD_eq_getD_getElem?]

/-- The members of the group of an index, in the order of their local indices. -/
def groupOf (targets : List ℕ) (buffer : Array (Cplx α)) (x : ℕ) : List (Cplx α) :=
  (List.range (2 ^ targets.length)).map fun l => buffer.getD (member targets x l) 0

/-- The row of a matrix that belongs to an index, times the group of the index. -/
def denseEntry (targets : List ℕ) (m buffer : Array (Cplx α)) (x : ℕ) : Cplx α :=
  rowProduct m (2 ^ targets.length) (Ket.gather x.testBit targets) (groupOf targets buffer x)

/-! ## One group -/

theorem getD_writeRows_of_ne (m : Array (Cplx α)) (dim base : ℕ) (group : List (Cplx α)) {x : ℕ}
    {offsets : List ℕ} (h : ∀ o ∈ offsets, base ||| o ≠ x) (row : ℕ) (buffer : Array (Cplx α)) :
    (writeRows m dim base group row offsets buffer).getD x 0 = buffer.getD x 0 := by
  induction offsets generalizing row buffer with
  | nil => rfl
  | cons o rest ih =>
    rw [writeRows, ih fun o ho => h o (List.mem_cons_of_mem _ ho), getD_setIfInBounds,
      if_neg fun hx => h o List.mem_cons_self hx.1]

theorem getD_writeRows (m : Array (Cplx α)) (dim base : ℕ) (group : List (Cplx α))
    {offsets : List ℕ} (hn : (offsets.map (base ||| ·)).Nodup) (row : ℕ)
    {buffer : Array (Cplx α)} {j : ℕ} (hj : j < offsets.length)
    (hx : base ||| offsets[j] < buffer.size) :
    (writeRows m dim base group row offsets buffer).getD (base ||| offsets[j]) 0 =
      rowProduct m dim (row + j) group := by
  induction offsets generalizing row buffer j with
  | nil => simp at hj
  | cons o rest ih =>
    obtain ⟨ho, hrest⟩ := List.nodup_cons.mp hn
    cases j with
    | zero =>
      have hne : ∀ o' ∈ rest, base ||| o' ≠ base ||| o := fun o' ho' h =>
        ho (List.mem_map.mpr ⟨o', ho', h⟩)
      rw [List.getElem_cons_zero] at hx ⊢
      rw [writeRows, getD_writeRows_of_ne m dim base group hne, getD_setIfInBounds,
        if_pos ⟨rfl, hx⟩, Nat.add_zero]
    | succ j =>
      rw [List.getElem_cons_succ] at hx ⊢
      rw [writeRows, ih hrest (row + 1) (by simpa using hj) (by simpa using hx), Nat.add_assoc,
        Nat.add_comm 1]

theorem getD_updateGroup {targets : List ℕ} (ht : targets.Nodup) (m : Array (Cplx α))
    {buffer : Array (Cplx α)} {base : ℕ} (hbase : cleared targets base = base) {x : ℕ}
    (hx : x < buffer.size) :
    (updateGroup ((List.range (2 ^ targets.length)).map (deposit targets)) (2 ^ targets.length) m
        buffer base).getD x 0 =
      if cleared targets x = base then denseEntry targets m buffer x else buffer.getD x 0 := by
  by_cases hc : cleared targets x = base
  · have hmember (l : ℕ) : base ||| deposit targets l = member targets x l := by rw [member, hc]
    have hj : Ket.gather x.testBit targets <
        ((List.range (2 ^ targets.length)).map (deposit targets)).length := by
      simpa using Ket.gather_lt x.testBit targets
    have hget : base ||| ((List.range (2 ^ targets.length)).map (deposit targets))[
        Ket.gather x.testBit targets] = x := by
      rw [List.getElem_map, List.getElem_range, hmember, member_gather ht]
    have hnodup : (((List.range (2 ^ targets.length)).map (deposit targets)).map
        (base ||| ·)).Nodup := by
      rw [List.map_map]
      refine List.Nodup.map_on (fun l hl l' hl' h => ?_) List.nodup_range
      simp only [Function.comp_apply, hmember] at h
      rw [← gather_member ht x (List.mem_range.mp hl), h,
        gather_member ht x (List.mem_range.mp hl')]
    have hwrite := getD_writeRows m (2 ^ targets.length) base (groupOf targets buffer x) hnodup 0 hj
      (by rw [hget]; exact hx)
    rw [hget, Nat.zero_add] at hwrite
    rw [if_pos hc, denseEntry, ← hwrite, updateGroup, groupOf, List.map_map]
    simp only [Function.comp_def, hmember]
  · rw [if_neg hc, updateGroup, getD_writeRows_of_ne]
    intro o ho h
    obtain ⟨l, -, rfl⟩ := List.mem_map.mp ho
    apply hc
    rw [← h, ← hbase]
    exact cleared_member targets base l

/-! ## All groups -/

section Sequential

variable {targets : List ℕ} {n : ℕ} {buffer : Array (Cplx α)}

theorem size_foldl_updateGroup (offsets : List ℕ) (dim mask : ℕ) (m : Array (Cplx α))
    (bases : List ℕ) (buffer : Array (Cplx α)) :
    (bases.foldl (fun b base => if base &&& mask = 0 then updateGroup offsets dim m b base else b)
      buffer).size = buffer.size := by
  induction bases generalizing buffer with
  | nil => rfl
  | cons base rest ih =>
    rw [List.foldl_cons, ih]
    split <;> simp

/-- The entries while the groups are updated one after another: those of visited groups are final,
all others are untouched. -/
theorem getD_foldl_updateGroup (ht : targets.Nodup) (hn : ∀ q ∈ targets, q < n)
    (hsize : buffer.size = 2 ^ n) (m : Array (Cplx α)) {bound x : ℕ} (hx : x < 2 ^ n) :
    ((List.range bound).foldl (fun b base => if base &&& targetMask targets = 0 then
        updateGroup ((List.range (2 ^ targets.length)).map (deposit targets)) (2 ^ targets.length) m
          b base else b) buffer).getD x 0 =
      if cleared targets x < bound then denseEntry targets m buffer x else buffer.getD x 0 := by
  induction bound generalizing x with
  | zero => simp
  | succ k ih =>
    rw [List.range_succ, List.foldl_append, List.foldl_cons, List.foldl_nil]
    have hb := size_foldl_updateGroup ((List.range (2 ^ targets.length)).map (deposit targets))
      (2 ^ targets.length) (targetMask targets) m (List.range k) buffer
    revert ih hb
    generalize (List.range k).foldl _ buffer = b
    intro ih hb
    by_cases hk : k &&& targetMask targets = 0
    · rw [if_pos hk, getD_updateGroup ht m (and_targetMask_eq_zero.mp hk) (by omega)]
      by_cases hc : cleared targets x = k
      · -- the group is read before any of its members is written
        have hgroup : groupOf targets b x = groupOf targets buffer x := by
          apply List.map_congr_left
          intro l _
          rw [ih (member_lt ht hn hx l), cleared_member, if_neg (by omega)]
        rw [if_pos hc, if_pos (by omega), denseEntry, hgroup, denseEntry]
      · rw [if_neg hc, ih hx]
        congr 1
        exact propext (by omega)
    · have hc : cleared targets x ≠ k := by
        rintro rfl
        exact hk (and_targetMask_eq_zero.mpr (cleared_cleared targets x))
      rw [if_neg hk, ih hx]
      congr 1
      exact propext (by omega)

theorem getD_applyMatrix (ht : targets.Nodup) (hn : ∀ q ∈ targets, q < n)
    (hsize : buffer.size = 2 ^ n) (m : Array (Cplx α)) {x : ℕ} (hx : x < 2 ^ n) :
    (applyMatrix targets m buffer).getD x 0 = denseEntry targets m buffer x := by
  have hc := cleared_le targets x
  rw [applyMatrix, getD_foldl_updateGroup ht hn hsize m hx, if_pos (by omega)]

end Sequential

end KetSim.Engine

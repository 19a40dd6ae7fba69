import KetSim.Proofs.Engine.Dense

/-! # Blocks of whole groups

The chunked kernel cuts the buffer at multiples of a power of two above every
target bit, so that no group is cut. It leaves what the sequential kernel
leaves, whatever the order of the blocks. No law of arithmetic is needed.
-/
namespace KetSim.Engine

variable {α : Type} [Scalar α]

/-! ## Sizes of blocks -/

theorem foldl_max_two_pow (targets : List ℕ) (t : ℕ) :
    targets.foldl (fun n q => max n (2 ^ (q + 1))) (2 ^ t) =
      2 ^ targets.foldl (fun n q => max n (q + 1)) t := by
  induction targets generalizing t with
  | nil => rfl
  | cons q rest ih =>
    have h : max (2 ^ t) (2 ^ (q + 1)) = 2 ^ max t (q + 1) :=
      ((pow_right_mono₀ (one_le_two : (1 : ℕ) ≤ 2)).map_max).symm
    rw [List.foldl_cons, List.foldl_cons, h, ih]

theorem le_foldl_max (targets : List ℕ) (t : ℕ) :
    t ≤ targets.foldl (fun n q => max n (q + 1)) t ∧
      ∀ q ∈ targets, q < targets.foldl (fun n q => max n (q + 1)) t := by
  induction targets generalizing t with
  | nil => simp
  | cons q rest ih =>
    obtain ⟨h1, h2⟩ := ih (max t (q + 1))
    rw [List.foldl_cons]
    refine ⟨by omega, ?_⟩
    intro p hp
    rcases List.mem_cons.mp hp with rfl | hp
    · omega
    · exact h2 p hp

theorem foldl_max_le {targets : List ℕ} {n t : ℕ} (hn : ∀ q ∈ targets, q < n) (ht : t ≤ n) :
    targets.foldl (fun n q => max n (q + 1)) t ≤ n := by
  induction targets generalizing t with
  | nil => exact ht
  | cons q rest ih =>
    have hq := hn q List.mem_cons_self
    exact ih (fun p hp => hn p (List.mem_cons_of_mem _ hp)) (max_le ht hq)

theorem chunkSize_eq_two_pow {targets : List ℕ} {n : ℕ} (hn : ∀ q ∈ targets, q < n) :
    ∃ s ≤ n, chunkSize targets (2 ^ n) = 2 ^ s ∧ ∀ q ∈ targets, q < s := by
  have hle : targets.foldl (fun n q => max n (q + 1)) 0 ≤ n := foldl_max_le hn (Nat.zero_le n)
  refine ⟨_, hle, ?_, (le_foldl_max targets 0).2⟩
  have hspan := foldl_max_two_pow targets 0
  rw [pow_zero] at hspan
  have hpow := Nat.pow_le_pow_right (by omega : 0 < 2) hle
  have hpos := Nat.two_pow_pos (targets.foldl (fun n q => max n (q + 1)) 0)
  rw [chunkSize, hspan]
  omega

theorem numChunks_eq_two_pow {targets : List ℕ} {n s : ℕ} (hs : s ≤ n)
    (hsize : chunkSize targets (2 ^ n) = 2 ^ s) : numChunks targets (2 ^ n) = 2 ^ (n - s) := by
  have hpos := Nat.two_pow_pos s
  have hmul : 2 ^ n = 2 ^ s * 2 ^ (n - s) := by rw [← pow_add, Nat.add_sub_cancel' hs]
  have hlast : 2 ^ s - 1 < 2 ^ s := by omega
  rw [numChunks, hsize, hmul, Nat.add_sub_assoc hpos, mul_add_div_of_lt hlast]

/-! ## Groups within a block -/

section Block

variable {targets : List ℕ} {s : ℕ} (hs : ∀ q ∈ targets, q < s)

include hs

theorem gather_block {k y : ℕ} (hy : y < 2 ^ s) :
    Ket.gather (2 ^ s * k + y).testBit targets = Ket.gather y.testBit targets := by
  apply Ket.gather_congr
  intro q hq
  rw [Nat.testBit_two_pow_mul_add k hy, if_pos (hs q hq)]

theorem member_block (ht : targets.Nodup) {k y : ℕ} (hy : y < 2 ^ s) (l : ℕ) :
    member targets (2 ^ s * k + y) l = 2 ^ s * k + member targets y l := by
  apply Nat.eq_of_testBit_eq
  intro p
  rw [Nat.testBit_two_pow_mul_add k (member_lt ht hs hy l), testBit_member ht, testBit_member ht,
    scatter_eq_deposit ht, scatter_eq_deposit ht, Nat.testBit_two_pow_mul_add k hy]
  by_cases hp : p ∈ targets
  · simp [hp, hs p hp]
  · simp [hp]

omit hs in
theorem getD_block {buffer : Array (Cplx α)} {k y : ℕ} (hk : (k + 1) * 2 ^ s ≤ buffer.size)
    (hy : y < 2 ^ s) :
    (buffer.extract (k * 2 ^ s) ((k + 1) * 2 ^ s)).getD y 0 = buffer.getD (2 ^ s * k + y) 0 := by
  have hlt : y < (k + 1) * 2 ^ s - k * 2 ^ s := by
    rwa [Nat.add_mul, Nat.one_mul, Nat.add_sub_cancel_left]
  rw [Array.getD_eq_getD_getElem?, Array.getD_eq_getD_getElem?, Array.getElem?_extract,
    Nat.min_eq_left hk, if_pos hlt, Nat.mul_comm k]

theorem denseEntry_extract (ht : targets.Nodup) (m : Array (Cplx α)) {buffer : Array (Cplx α)}
    {k y : ℕ} (hk : (k + 1) * 2 ^ s ≤ buffer.size) (hy : y < 2 ^ s) :
    denseEntry targets m (buffer.extract (k * 2 ^ s) ((k + 1) * 2 ^ s)) y =
      denseEntry targets m buffer (2 ^ s * k + y) := by
  have hgroup : groupOf targets (buffer.extract (k * 2 ^ s) ((k + 1) * 2 ^ s)) y =
      groupOf targets buffer (2 ^ s * k + y) := by
    apply List.map_congr_left
    intro l _
    rw [member_block hs ht hy, getD_block hk (member_lt ht hs hy l)]
  rw [denseEntry, denseEntry, gather_block hs hy, hgroup]

end Block

/-! ## One block -/

theorem getD_writeFrom (i : ℕ) (entries : List (Cplx α)) {buffer : Array (Cplx α)} {x : ℕ}
    (hx : x < buffer.size) :
    (writeFrom i entries buffer).getD x 0 =
      if i ≤ x ∧ x < i + entries.length then entries.getD (x - i) 0 else buffer.getD x 0 := by
  induction entries generalizing i buffer with
  | nil => simp [writeFrom]
  | cons a rest ih =>
    rw [writeFrom, ih (i + 1) (by simpa using hx), getD_setIfInBounds, List.length_cons]
    by_cases hxi : i = x
    · subst hxi
      simp [hx]
    · by_cases hin : i + 1 ≤ x ∧ x < i + 1 + rest.length
      · have hsub : x - i = x - (i + 1) + 1 := by omega
        rw [if_pos hin, if_pos (by omega), hsub, List.getD_cons_succ]
      · rw [if_neg hin, if_neg fun h => hxi h.1, if_neg (by omega)]

section Chunks

variable {targets : List ℕ} {n s : ℕ} {buffer : Array (Cplx α)}

omit [Scalar α] in
theorem size_block {k : ℕ} (hk : (k + 1) * 2 ^ s ≤ buffer.size) :
    (buffer.extract (k * 2 ^ s) ((k + 1) * 2 ^ s)).size = 2 ^ s := by
  rw [Array.size_extract, Nat.min_eq_left hk, Nat.add_mul, Nat.one_mul, Nat.add_sub_cancel_left]

theorem getD_writeBlock {block : Array (Cplx α)} (k : ℕ) (hblock : block.size = 2 ^ s) {x : ℕ}
    (hx : x < buffer.size) :
    (writeFrom (k * 2 ^ s) block.toList buffer).getD x 0 =
      if x / 2 ^ s = k then block.getD (x % 2 ^ s) 0 else buffer.getD x 0 := by
  have hdiv := Nat.div_add_mod x (2 ^ s)
  have hmod := Nat.mod_lt x (Nat.two_pow_pos s)
  rw [getD_writeFrom _ _ hx, Array.length_toList, hblock]
  by_cases hxk : x / 2 ^ s = k
  · rw [hxk, Nat.mul_comm] at hdiv
    have hsub : x - k * 2 ^ s = x % 2 ^ s := by omega
    rw [if_pos hxk, if_pos (by omega), hsub, getD_toList]
  · have hout : ¬(k * 2 ^ s ≤ x ∧ x < k * 2 ^ s + 2 ^ s) := by
      rintro ⟨h1, h2⟩
      apply hxk
      rw [Nat.div_eq_of_lt_le h1]
      rw [Nat.succ_mul]
      exact h2
    rw [if_neg hout, if_neg hxk]

theorem getD_updateChunk (ht : targets.Nodup) (hs : ∀ q ∈ targets, q < s) (m : Array (Cplx α))
    {k : ℕ} (hk : (k + 1) * 2 ^ s ≤ buffer.size) {x : ℕ} (hx : x < buffer.size) :
    (updateChunk targets m (2 ^ s) buffer k).getD x 0 =
      if x / 2 ^ s = k then denseEntry targets m buffer x else buffer.getD x 0 := by
  have hmod := Nat.mod_lt x (Nat.two_pow_pos s)
  rw [updateChunk, getD_writeBlock k (by rw [size_applyMatrix, size_block hk]) hx]
  by_cases hxk : x / 2 ^ s = k
  · have hdiv := Nat.div_add_mod x (2 ^ s)
    rw [if_pos hxk, if_pos hxk, getD_applyMatrix ht hs (size_block hk) m hmod,
      denseEntry_extract hs ht m hk hmod, ← hxk, hdiv]
  · rw [if_neg hxk, if_neg hxk]

/-- The entries while the blocks are updated: those of visited blocks are final, all others are
untouched. -/
theorem getD_foldl_updateChunk (ht : targets.Nodup) (hs : ∀ q ∈ targets, q < s) (hsn : s ≤ n)
    (hsize : buffer.size = 2 ^ n) (m : Array (Cplx α)) {order : List ℕ} (ho : order.Nodup)
    (hk : ∀ k ∈ order, k < 2 ^ (n - s)) {x : ℕ} (hx : x < 2 ^ n) :
    (order.foldl (updateChunk targets m (2 ^ s)) buffer).getD x 0 =
      if x / 2 ^ s ∈ order then denseEntry targets m buffer x else buffer.getD x 0 := by
  induction order generalizing buffer x with
  | nil => simp
  | cons k rest ih =>
    obtain ⟨hkrest, hrest⟩ := List.nodup_cons.mp ho
    have hmul : 2 ^ n = 2 ^ (n - s) * 2 ^ s := by rw [← pow_add, Nat.sub_add_cancel hsn]
    have hkb : (k + 1) * 2 ^ s ≤ buffer.size := by
      rw [hsize, hmul]
      exact Nat.mul_le_mul_right _ (hk k List.mem_cons_self)
    have hstep (y : ℕ) (hy : y < 2 ^ n) := getD_updateChunk ht hs m hkb (x := y) (by omega)
    rw [List.foldl_cons, ih (by simp [updateChunk, hsize]) hrest
      (fun j hj => hk j (List.mem_cons_of_mem _ hj)) hx, hstep x hx]
    by_cases hxr : x / 2 ^ s ∈ rest
    · -- no member of the group lies in the block that has just been written
      have hne : x / 2 ^ s ≠ k := fun h => hkrest (h ▸ hxr)
      have hgroup : groupOf targets (updateChunk targets m (2 ^ s) buffer k) x =
          groupOf targets buffer x := by
        apply List.map_congr_left
        intro l _
        have hml := member_lt ht (fun q hq => (hs q hq).trans_le hsn) hx l
        have hdiv : member targets x l / 2 ^ s = x / 2 ^ s := by
          conv_lhs => rw [← Nat.div_add_mod x (2 ^ s)]
          have hmod := Nat.mod_lt x (Nat.two_pow_pos s)
          rw [member_block hs ht hmod, mul_add_div_of_lt (member_lt ht hs hmod l)]
        rw [hstep _ hml, hdiv, if_neg hne]
      rw [if_pos hxr, if_pos (List.mem_cons_of_mem _ hxr), denseEntry, hgroup, denseEntry]
    · simp [hxr]

end Chunks

omit [Scalar α] in
theorem ext_getD (d : Cplx α) {a b : Array (Cplx α)} (hsize : a.size = b.size)
    (h : ∀ x < a.size, a.getD x d = b.getD x d) : a = b := by
  apply Array.ext hsize
  intro x ha hb
  have hx := h x ha
  simpa [Array.getD_eq_getD_getElem?, ha, hb] using hx

/-- The chunked kernel leaves what the sequential kernel leaves, in any order of the blocks. -/
theorem applyChunks_eq_applyMatrix {targets : List ℕ} (ht : targets.Nodup) {n : ℕ}
    (hn : ∀ q ∈ targets, q < n) (m : Array (Cplx α)) {buffer : Array (Cplx α)}
    (hsize : buffer.size = 2 ^ n) {order : List ℕ}
    (ho : order.Perm (List.range (numChunks targets buffer.size))) :
    applyChunks targets m order buffer = applyMatrix targets m buffer := by
  obtain ⟨s, hsn, hchunk, hs⟩ := chunkSize_eq_two_pow hn
  rw [hsize, numChunks_eq_two_pow hsn hchunk] at ho
  apply ext_getD 0 (by simp)
  intro x hx
  have hx : x < 2 ^ n := by simpa [hsize] using hx
  have hblock : x / 2 ^ s ∈ order := by
    rw [ho.mem_iff, List.mem_range]
    apply Nat.div_lt_of_lt_mul
    rwa [← pow_add, Nat.add_sub_cancel' hsn]
  rw [applyChunks, hsize, hchunk, getD_foldl_updateChunk ht hs hsn hsize m
    (ho.nodup_iff.mpr List.nodup_range) (fun k hk => List.mem_range.mp (ho.mem_iff.mp hk)) hx,
    if_pos hblock, getD_applyMatrix ht hn hsize m hx]

theorem applyOn_eq_applyMatrix (device : Device) {targets : List ℕ} (ht : targets.Nodup) {n : ℕ}
    (hn : ∀ q ∈ targets, q < n) (m : Array (Cplx α)) {buffer : Array (Cplx α)}
    (hsize : buffer.size = 2 ^ n) :
    applyOn device targets m buffer = applyMatrix targets m buffer := by
  cases device with
  | cpu => rfl
  | gpu => exact applyChunks_eq_applyMatrix ht hn m hsize (List.Perm.refl _)

end KetSim.Engine

import KetSim.Proofs.Exact
import KetSim.Proofs.Engine.Chunk

/-! # Schedules of the blocks

The chunked kernel gives every block to a task of its own, and a task goes
through the groups of its block in order. A schedule mixes the steps of all
tasks. Every schedule leaves what the sequential kernel leaves: each group is
updated once, and no step sees a group that another step has written. No law of
arithmetic is needed.
-/
namespace KetSim.Engine

/-! ## Schedules -/

/-- A list of steps, each named by its block and a local index, in which every task of a block
makes all its steps in its own order. -/
structure Interleaves (blocks size : ℕ) (events : List (ℕ × ℕ)) : Prop where
  tasks : ∀ k < blocks, (events.filter (·.1 = k)).map Prod.snd = List.range size
  known : ∀ e ∈ events, e.1 < blocks

namespace Interleaves

variable {blocks size : ℕ} {events : List (ℕ × ℕ)}

theorem mem_iff (h : Interleaves blocks size events) {k y : ℕ} :
    (k, y) ∈ events ↔ k < blocks ∧ y < size := by
  have htask (hk : k < blocks) : (k, y) ∈ events ↔ y < size := by
    rw [← List.mem_range, ← h.tasks k hk]
    simp
  exact ⟨fun he => ⟨h.known _ he, (htask (h.known _ he)).mp he⟩, fun ⟨hk, hy⟩ => (htask hk).mpr hy⟩

theorem nodup (h : Interleaves blocks size events) : events.Nodup := by
  rw [List.nodup_iff_count_le_one]
  intro e
  by_cases he : e ∈ events
  · have htask : (events.filter (·.1 = e.1)).Nodup := by
      apply List.Nodup.of_map Prod.snd
      rw [h.tasks e.1 (h.known e he)]
      exact List.nodup_range
    have hcount : (events.filter (·.1 = e.1)).count e = events.count e :=
      List.count_filter (by simp)
    rw [← hcount]
    exact List.nodup_iff_count_le_one.mp htask e
  · rw [List.count_eq_zero_of_not_mem he]
    exact Nat.zero_le 1

end Interleaves

/-- The schedule that finishes one block after another. -/
def serial (size : ℕ) (order : List ℕ) : List (ℕ × ℕ) :=
  order.flatMap fun k => (List.range size).map (k, ·)

theorem mem_serial {size k y : ℕ} {order : List ℕ} :
    (k, y) ∈ serial size order ↔ k ∈ order ∧ y < size := by
  simp [serial]

theorem filter_serial (size k : ℕ) {order : List ℕ} (ho : order.Nodup) (hk : k ∈ order) :
    (serial size order).filter (·.1 = k) = (List.range size).map (k, ·) := by
  have hother (j : ℕ) (hj : j ≠ k) : ((List.range size).map (j, ·)).filter (·.1 = k) = [] := by
    simp [hj]
  have hnone {rest : List ℕ} (hrest : k ∉ rest) : (serial size rest).filter (·.1 = k) = [] := by
    rw [List.filter_eq_nil_iff]
    rintro ⟨j, y⟩ he
    have hj := (mem_serial.mp he).1
    simp only [decide_eq_true_eq]
    rintro rfl
    exact hrest hj
  induction order with
  | nil => simp at hk
  | cons j rest ih =>
    obtain ⟨hj, hrest⟩ := List.nodup_cons.mp ho
    rw [serial, List.flatMap_cons, List.filter_append, ← serial]
    by_cases hjk : j = k
    · subst hjk
      rw [hnone hj, List.append_nil, List.filter_eq_self]
      simp
    · rw [hother j hjk, List.nil_append]
      exact ih hrest ((List.mem_cons.mp hk).resolve_left (Ne.symm hjk))

theorem interleaves_serial (size : ℕ) {blocks : ℕ} {order : List ℕ}
    (ho : order.Perm (List.range blocks)) : Interleaves blocks size (serial size order) where
  tasks k hk := by
    rw [filter_serial size k (ho.nodup_iff.mpr List.nodup_range)
      (ho.mem_iff.mpr (List.mem_range.mpr hk)), List.map_map]
    simp [Function.comp_def]
  known e he := List.mem_range.mp (ho.mem_iff.mp (mem_serial.mp he).1)

/-! ## Steps -/

variable {α : Type} [Scalar α]

/-- One step of the task of a block: the group of a local index, within the block. -/
def stepBlock (targets : List ℕ) (m : Array (Cplx α)) (size : ℕ) (buffer : Array (Cplx α))
    (event : ℕ × ℕ) : Array (Cplx α) :=
  let dim := 2 ^ targets.length
  let offsets := (List.range dim).map (deposit targets)
  let block := buffer.extract (event.1 * size) ((event.1 + 1) * size)
  if event.2 &&& targetMask targets = 0 then
    writeFrom (event.1 * size) (updateGroup offsets dim m block event.2).toList buffer
  else buffer

def runSchedule (targets : List ℕ) (m : Array (Cplx α)) (size : ℕ) (events : List (ℕ × ℕ))
    (buffer : Array (Cplx α)) : Array (Cplx α) :=
  events.foldl (stepBlock targets m size) buffer

@[simp] theorem size_stepBlock (targets : List ℕ) (m : Array (Cplx α)) (size : ℕ)
    (buffer : Array (Cplx α)) (event : ℕ × ℕ) :
    (stepBlock targets m size buffer event).size = buffer.size := by
  simp only [stepBlock]
  split <;> simp

@[simp] theorem size_runSchedule (targets : List ℕ) (m : Array (Cplx α)) (size : ℕ)
    (events : List (ℕ × ℕ)) (buffer : Array (Cplx α)) :
    (runSchedule targets m size events buffer).size = buffer.size := by
  induction events generalizing buffer with
  | nil => rfl
  | cons event rest ih => exact (ih _).trans (size_stepBlock targets m size buffer event)

/-- The step that settles the entry of an index. -/
def stepOf (targets : List ℕ) (s x : ℕ) : ℕ × ℕ := (x / 2 ^ s, cleared targets (x % 2 ^ s))

section Steps

variable {targets : List ℕ} {n s : ℕ} {buffer : Array (Cplx α)}

theorem getD_stepBlock (ht : targets.Nodup) (hs : ∀ q ∈ targets, q < s) (m : Array (Cplx α))
    {event : ℕ × ℕ} (hk : (event.1 + 1) * 2 ^ s ≤ buffer.size) {x : ℕ} (hx : x < buffer.size) :
    (stepBlock targets m (2 ^ s) buffer event).getD x 0 =
      if stepOf targets s x = event then denseEntry targets m buffer x else buffer.getD x 0 := by
  obtain ⟨k, y⟩ := event
  have hmod := Nat.mod_lt x (Nat.two_pow_pos s)
  have hlen : (buffer.extract (k * 2 ^ s) ((k + 1) * 2 ^ s)).size = 2 ^ s := size_block hk
  simp only [stepBlock, stepOf, Prod.mk.injEq]
  by_cases hclear : y &&& targetMask targets = 0
  · rw [if_pos hclear, getD_writeBlock _ (by rw [size_updateGroup, hlen]) hx]
    by_cases hxk : x / 2 ^ s = k
    · have hx' : 2 ^ s * k + x % 2 ^ s = x := by rw [← hxk, Nat.div_add_mod]
      rw [if_pos hxk, getD_updateGroup ht m (and_targetMask_eq_zero.mp hclear) (by omega),
        denseEntry_extract hs ht m hk hmod, getD_block hk hmod, hx']
      simp [hxk]
    · simp [hxk]
  · have hne : cleared targets (x % 2 ^ s) ≠ y := by
      rintro rfl
      exact hclear (and_targetMask_eq_zero.mpr (cleared_cleared targets _))
    simp [hclear, hne]

theorem stepOf_member (ht : targets.Nodup) (hs : ∀ q ∈ targets, q < s) (x l : ℕ) :
    stepOf targets s (member targets x l) = stepOf targets s x := by
  have hmod := Nat.mod_lt x (Nat.two_pow_pos s)
  have hlt := member_lt ht hs hmod l
  have hmember := member_block hs ht (k := x / 2 ^ s) hmod l
  rw [Nat.div_add_mod] at hmember
  rw [stepOf, hmember, mul_add_div_of_lt hlt, Nat.mul_add_mod, Nat.mod_eq_of_lt hlt, cleared_member,
    stepOf]

/-- The entries while a schedule runs: those whose step has been made are final, all others are
untouched. -/
theorem getD_runSchedule (ht : targets.Nodup) (hs : ∀ q ∈ targets, q < s) (hsn : s ≤ n)
    (hsize : buffer.size = 2 ^ n) (m : Array (Cplx α)) {events : List (ℕ × ℕ)}
    (hevents : events.Nodup) (hknown : ∀ e ∈ events, e.1 < 2 ^ (n - s)) {x : ℕ} (hx : x < 2 ^ n) :
    (runSchedule targets m (2 ^ s) events buffer).getD x 0 =
      if stepOf targets s x ∈ events then denseEntry targets m buffer x else buffer.getD x 0 := by
  induction events generalizing buffer x with
  | nil => simp [runSchedule]
  | cons event rest ih =>
    obtain ⟨hnot, hrest⟩ := List.nodup_cons.mp hevents
    obtain ⟨hevent, hknown⟩ := List.forall_mem_cons.mp hknown
    have hk : (event.1 + 1) * 2 ^ s ≤ buffer.size := by
      rw [hsize, ← Nat.pow_sub_mul_pow 2 hsn]
      exact Nat.mul_le_mul_right _ hevent
    have hstep (y : ℕ) (hy : y < 2 ^ n) := getD_stepBlock ht hs m hk (x := y) (by omega)
    have hsize' : (stepBlock targets m (2 ^ s) buffer event).size = 2 ^ n := by simp [hsize]
    have hrun := ih hsize' hrest hknown hx
    rw [runSchedule, List.foldl_cons, ← runSchedule, hrun, hstep x hx]
    by_cases hxr : stepOf targets s x ∈ rest
    · -- the step just made belongs to another group
      have hne : stepOf targets s x ≠ event := fun h => hnot (h ▸ hxr)
      have hgroup : groupOf targets (stepBlock targets m (2 ^ s) buffer event) x =
          groupOf targets buffer x := by
        apply List.map_congr_left
        intro l _
        have hml := member_lt ht (fun q hq => (hs q hq).trans_le hsn) hx l
        rw [hstep _ hml, stepOf_member ht hs, if_neg hne]
      rw [if_pos hxr, if_pos (List.mem_cons_of_mem _ hxr), denseEntry, hgroup, denseEntry]
    · simp [hxr]

end Steps

/-! ## Any schedule -/

theorem runSchedule_eq_applyMatrix {targets : List ℕ} (ht : targets.Nodup) {n : ℕ}
    (hn : ∀ q ∈ targets, q < n) (m : Array (Cplx α)) {buffer : Array (Cplx α)}
    (hsize : buffer.size = 2 ^ n) {events : List (ℕ × ℕ)}
    (h : Interleaves (numChunks targets (2 ^ n)) (chunkSize targets (2 ^ n)) events) :
    runSchedule targets m (chunkSize targets (2 ^ n)) events buffer =
      applyMatrix targets m buffer := by
  obtain ⟨s, hsn, hchunk, hs⟩ := chunkSize_eq_two_pow hn
  rw [numChunks_eq_two_pow hsn hchunk, hchunk] at h
  rw [hchunk]
  apply ext_getD 0 (by simp)
  intro x hx
  have hx : x < 2 ^ n := by simpa [hsize] using hx
  have hmade : stepOf targets s x ∈ events := by
    refine h.mem_iff.mpr ⟨?_, ?_⟩
    · apply Nat.div_lt_of_lt_mul
      rwa [← pow_add, Nat.add_sub_cancel' hsn]
    · exact (cleared_le targets _).trans_lt (Nat.mod_lt x (Nat.two_pow_pos s))
  rw [getD_runSchedule ht hs hsn hsize m h.nodup h.known hx, if_pos hmade,
    getD_applyMatrix ht hn hsize m hx]

/-- The blocks cover the buffer exactly, and the chunked kernel leaves what the sequential kernel
leaves: with the blocks in order, in any other order, and in any schedule of their tasks. -/
theorem chunked_refines_sequential {targets : List ℕ} {n : ℕ} {m buffer : Array (Cplx α)}
    (ht : targets.Nodup) (hn : ∀ q ∈ targets, q < n) (hsize : buffer.size = 2 ^ n) :
    applyChunked targets m buffer = applyMatrix targets m buffer ∧
      numChunks targets (2 ^ n) * chunkSize targets (2 ^ n) = 2 ^ n ∧
      (∀ order : List ℕ, order.Perm (List.range (numChunks targets (2 ^ n))) →
        applyChunks targets m order buffer = applyMatrix targets m buffer ∧
        Interleaves (numChunks targets (2 ^ n)) (chunkSize targets (2 ^ n))
          (serial (chunkSize targets (2 ^ n)) order)) ∧
      ∀ events, Interleaves (numChunks targets (2 ^ n)) (chunkSize targets (2 ^ n)) events →
        runSchedule targets m (chunkSize targets (2 ^ n)) events buffer =
          applyMatrix targets m buffer := by
  obtain ⟨s, hsn, hchunk, -⟩ := chunkSize_eq_two_pow hn
  have hcover : numChunks targets (2 ^ n) * chunkSize targets (2 ^ n) = 2 ^ n := by
    rw [numChunks_eq_two_pow hsn hchunk, hchunk, Nat.pow_sub_mul_pow 2 hsn]
  have horder (order : List ℕ) (ho : order.Perm (List.range (numChunks targets (2 ^ n)))) :
      applyChunks targets m order buffer = applyMatrix targets m buffer :=
    applyChunks_eq_applyMatrix ht hn m hsize (by rwa [hsize])
  refine ⟨?_, hcover, fun order ho => ⟨horder order ho, interleaves_serial _ ho⟩,
    fun events h => runSchedule_eq_applyMatrix ht hn m hsize h⟩
  rw [applyChunked, hsize]
  exact horder _ (List.Perm.refl _)

/-- Two blocks of two entries, one treated between the two steps of the other. -/
theorem chunked_refines_sequential_nested :
    [0].Nodup ∧ (∀ q ∈ [0], q < 2) ∧ Interleaves 2 2 [(1, 0), (0, 0), (0, 1), (1, 1)] ∧
      runSchedule [0] (Array.replicate 4 (1 : Cplx ℝ)) 2 [(1, 0), (0, 0), (0, 1), (1, 1)]
          (Array.replicate 4 1) =
        applyMatrix [0] (Array.replicate 4 1) (Array.replicate 4 1) ∧
      applyChunks [0] (Array.replicate 4 (1 : Cplx ℝ)) [1, 0] (Array.replicate 4 1) =
        applyMatrix [0] (Array.replicate 4 1) (Array.replicate 4 1) := by
  have ht : [0].Nodup := by decide
  have hn : ∀ q ∈ [0], q < 2 := by decide
  have hsize : (Array.replicate 4 (1 : Cplx ℝ)).size = 2 ^ 2 := by simp
  have hevents : Interleaves 2 2 [(1, 0), (0, 0), (0, 1), (1, 1)] := ⟨by decide, by decide⟩
  have hmain := chunked_refines_sequential (m := Array.replicate 4 (1 : Cplx ℝ)) ht hn hsize
  exact ⟨ht, hn, hevents, hmain.2.2.2 _ hevents, (hmain.2.2.1 [1, 0] (by decide)).1⟩

end KetSim.Engine

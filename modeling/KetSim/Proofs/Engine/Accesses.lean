import KetSim.Proofs.Engine.CheckedKernel

/-! # Accesses of the dense kernel

The dense kernel once more, over a memory that answers every load from the
buffer, every look at the matrix and every store. Over the plain memory it is
the kernel itself. Over a memory that writes a record and has no answer outside
its bounds, the record lists what the kernel touches: one group after another,
each loaded as a whole before the first of its members is stored.
-/
namespace KetSim.Engine

variable {α β γ : Type}

/-! ## The kernel over a memory -/

/-- What a kernel asks of its buffer and of its matrix. -/
structure Memory (M : Type → Type) (α : Type) where
  load : Array (Cplx α) → ℕ → M (Cplx α)
  entry : ℕ → M (Cplx α)
  store : Array (Cplx α) → ℕ → Cplx α → M (Array (Cplx α))

section Kernel

variable [Scalar α] {M : Type → Type} [Monad M] (mem : Memory M α)

def addProductsVia : ℕ → List (Cplx α) → Cplx α → M (Cplx α)
  | _, [], total => pure total
  | k, b :: rest, total => do
    let a ← mem.entry k
    addProductsVia (k + 1) rest (total + a * b)

def writeRowsVia (dim base : ℕ) (group : List (Cplx α)) :
    ℕ → List ℕ → Array (Cplx α) → M (Array (Cplx α))
  | _, [], buffer => pure buffer
  | row, offset :: rest, buffer => do
    let a ← addProductsVia mem (row * dim) group 0
    let buffer ← mem.store buffer (base ||| offset) a
    writeRowsVia dim base group (row + 1) rest buffer

def updateGroupVia (offsets : List ℕ) (dim : ℕ) (buffer : Array (Cplx α)) (base : ℕ) :
    M (Array (Cplx α)) := do
  let group ← offsets.mapM fun offset => mem.load buffer (base ||| offset)
  writeRowsVia mem dim base group 0 offsets buffer

def applyMatrixVia (targets : List ℕ) (buffer : Array (Cplx α)) : M (Array (Cplx α)) :=
  let dim := 2 ^ targets.length
  let offsets := (List.range dim).map (deposit targets)
  let mask := targetMask targets
  (List.range buffer.size).foldlM
    (fun b base => if base &&& mask = 0 then updateGroupVia mem offsets dim b base else pure b)
    buffer

end Kernel

/-! ## The plain memory -/

section Plain

variable [Scalar α]

def plainMemory (m : Array (Cplx α)) : Memory Id α where
  load buffer i := buffer.getD i 0
  entry k := m.getD k 0
  store buffer i a := buffer.setIfInBounds i a

theorem addProductsVia_plain (m : Array (Cplx α)) (k : ℕ) (group : List (Cplx α))
    (total : Cplx α) :
    addProductsVia (plainMemory m) k group total = addProducts m k group total := by
  induction group generalizing k total with
  | nil => rfl
  | cons b rest ih => exact ih (k + 1) _

theorem writeRowsVia_plain (m : Array (Cplx α)) (dim base : ℕ) (group : List (Cplx α)) (row : ℕ)
    (offsets : List ℕ) (buffer : Array (Cplx α)) :
    writeRowsVia (plainMemory m) dim base group row offsets buffer =
      writeRows m dim base group row offsets buffer := by
  induction offsets generalizing row buffer with
  | nil => rfl
  | cons offset rest ih =>
    rw [writeRows, rowProduct, ← addProductsVia_plain]
    exact ih (row + 1) _

theorem updateGroupVia_plain (m : Array (Cplx α)) (offsets : List ℕ) (dim : ℕ)
    (buffer : Array (Cplx α)) (base : ℕ) :
    updateGroupVia (plainMemory m) offsets dim buffer base =
      updateGroup offsets dim m buffer base := by
  have hgroup : (offsets.mapM fun offset => (plainMemory m).load buffer (base ||| offset)) =
      offsets.map fun offset => buffer.getD (base ||| offset) 0 :=
    List.mapM_pure
  rw [updateGroup, ← writeRowsVia_plain, ← hgroup]
  rfl

/-- Over the plain memory nothing but the notation has changed. -/
theorem applyMatrixVia_plain (targets : List ℕ) (m buffer : Array (Cplx α)) :
    applyMatrixVia (plainMemory m) targets buffer = applyMatrix targets m buffer := by
  simp only [applyMatrixVia, updateGroupVia_plain]
  rw [applyMatrix]
  exact List.foldlM_pure

end Plain

/-! ## A record of the accesses -/

/-- A load from the buffer, a look at an entry of the matrix, or a store to the buffer. -/
inductive Access where
  | load (i : ℕ)
  | entry (k : ℕ)
  | store (i : ℕ)
deriving DecidableEq, Repr

/-- An access to a matrix and a buffer of given sizes. -/
def Access.InRange (entries size : ℕ) : Access → Prop
  | load i | store i => i < size
  | entry k => k < entries

/-- The place of the buffer that an access reads or writes. -/
def Access.place? : Access → Option ℕ
  | load i | store i => some i
  | entry _ => none

/-- Runs that write a record and may have no answer. -/
abbrev Recorder : Type → Type := StateT (List Access) Option

def recordedAs (access : Access) (answer : Option β) : Recorder β := fun record =>
  answer.map (·, record ++ [access])

/-- The memory that records each access and has no answer out of range. -/
def recordingMemory (m : Array (Cplx α)) : Memory Recorder α where
  load buffer i := recordedAs (.load i) buffer[i]?
  entry k := recordedAs (.entry k) m[k]?
  store buffer i a := recordedAs (.store i) (write? buffer i a)

/-- The run has the answer `b` and appends just these accesses to the record. -/
def Makes (run : Recorder β) (b : β) (accesses : List Access) : Prop :=
  ∀ record, run record = some (b, record ++ accesses)

namespace Makes

theorem pure (b : β) : Makes (Pure.pure b) b [] := fun record => by
  rw [List.append_nil]
  rfl

theorem recordedAs {access : Access} {answer : Option β} {b : β} (h : answer = some b) :
    Makes (recordedAs access answer) b [access] := fun record => by
  rw [h]
  rfl

theorem bind {run : Recorder β} {next : β → Recorder γ} {b : β} {c : γ} {first rest : List Access}
    (h : Makes run b first) (hnext : Makes (next b) c rest) :
    Makes (run >>= next) c (first ++ rest) := fun record => by
  have hrun : (run >>= next) record = (run record).bind fun answer => next answer.1 answer.2 := rfl
  rw [hrun, h record, Option.bind_some, hnext, List.append_assoc]

theorem mapM {f : β → γ} {run : β → Recorder γ} {access : β → Access} {xs : List β}
    (h : ∀ x ∈ xs, Makes (run x) (f x) [access x]) :
    Makes (xs.mapM run) (xs.map f) (xs.map access) := by
  induction xs with
  | nil => exact pure []
  | cons x rest ih =>
    obtain ⟨hx, hrest⟩ := List.forall_mem_cons.mp h
    rw [List.mapM_cons, List.map_cons, List.map_cons, ← List.append_nil (rest.map access)]
    exact hx.bind ((ih hrest).bind (pure _))

/-- A loop whose steps keep an invariant makes the accesses of its steps one after another. -/
theorem foldlM {f : β → γ → β} {run : β → γ → Recorder β} {accesses : γ → List Access}
    {P : β → Prop} {xs : List γ}
    (step : ∀ b, P b → ∀ x ∈ xs, Makes (run b x) (f b x) (accesses x) ∧ P (f b x))
    {b : β} (hb : P b) : Makes (xs.foldlM run b) (xs.foldl f b) (xs.flatMap accesses) := by
  induction xs generalizing b with
  | nil => exact pure b
  | cons x rest ih =>
    obtain ⟨hx, hnext⟩ := step b hb x List.mem_cons_self
    rw [List.foldlM_cons, List.foldl_cons, List.flatMap_cons]
    exact hx.bind (ih (fun b hb y hy => step b hb y (List.mem_cons_of_mem _ hy)) hnext)

end Makes

/-! ## The record of a run -/

/-- The accesses for one group: all its members, then for each row of the matrix the entries of
the row and the member that belongs to it. -/
def groupAccesses (targets : List ℕ) (base : ℕ) : List Access :=
  let dim := 2 ^ targets.length
  (List.range dim).map (fun l => .load (base ||| deposit targets l)) ++
    (List.range dim).flatMap fun row =>
      (List.range dim).map (fun l => .entry (row * dim + l)) ++
        [.store (base ||| deposit targets row)]

/-- The indices with all target bits clear, one for each group. -/
def bases (targets : List ℕ) (size : ℕ) : List ℕ :=
  (List.range size).filter fun base => base &&& targetMask targets = 0

def accesses (targets : List ℕ) (size : ℕ) : List Access :=
  (bases targets size).flatMap (groupAccesses targets)

example : accesses [1] 4 =
    [.load 0, .load 2, .entry 0, .entry 1, .store 0, .entry 2, .entry 3, .store 2,
      .load 1, .load 3, .entry 0, .entry 1, .store 1, .entry 2, .entry 3, .store 3] := by
  decide

section Record

variable [Scalar α]

theorem makes_addProductsVia {m : Array (Cplx α)} {group : List (Cplx α)} {k : ℕ}
    (h : k + group.length ≤ m.size) (total : Cplx α) :
    Makes (addProductsVia (recordingMemory m) k group total) (addProducts m k group total)
      ((List.range' k group.length).map .entry) := by
  induction group generalizing k total with
  | nil => exact .pure total
  | cons b rest ih =>
    rw [List.length_cons] at h
    have hk : k < m.size := by omega
    have hget : m[k]? = some (m.getD k 0) := by simp [Array.getD, hk]
    rw [addProductsVia, addProducts, List.length_cons, List.range'_succ, List.map_cons]
    exact (Makes.recordedAs hget).bind (ih (by omega) _)

theorem makes_writeRowsVia {m : Array (Cplx α)} {targets : List ℕ} {dim base : ℕ}
    {group : List (Cplx α)} {row count : ℕ} {buffer : Array (Cplx α)} (hgroup : group.length = dim)
    (hm : (row + count) * dim ≤ m.size) (hbase : ∀ l, base ||| deposit targets l < buffer.size) :
    Makes
      (writeRowsVia (recordingMemory m) dim base group row
        ((List.range' row count).map (deposit targets)) buffer)
      (writeRows m dim base group row ((List.range' row count).map (deposit targets)) buffer)
      ((List.range' row count).flatMap fun row =>
        (List.range dim).map (fun l => .entry (row * dim + l)) ++
          [.store (base ||| deposit targets row)]) := by
  induction count generalizing row buffer with
  | zero => exact .pure buffer
  | succ count ih =>
    obtain ⟨hrow, hnext⟩ := rows_le hm
    rw [← hgroup] at hrow
    have hproducts := makes_addProductsVia hrow 0
    rw [hgroup, List.range'_eq_map_range, List.map_map] at hproducts
    rw [List.range'_succ, List.map_cons, List.flatMap_cons, writeRowsVia, writeRows,
      List.append_assoc]
    exact hproducts.bind ((Makes.recordedAs (write?_eq (hbase row) _)).bind
      (ih hnext (by simpa using hbase)))

theorem makes_updateGroupVia {m : Array (Cplx α)} {targets : List ℕ} {base : ℕ}
    {buffer : Array (Cplx α)} (hm : 2 ^ targets.length * 2 ^ targets.length ≤ m.size)
    (hbase : ∀ l, base ||| deposit targets l < buffer.size) :
    Makes
      (updateGroupVia (recordingMemory m)
        ((List.range (2 ^ targets.length)).map (deposit targets)) (2 ^ targets.length) buffer base)
      (updateGroup ((List.range (2 ^ targets.length)).map (deposit targets)) (2 ^ targets.length) m
        buffer base)
      (groupAccesses targets base) := by
  have hload : Makes
      (((List.range (2 ^ targets.length)).map (deposit targets)).mapM fun offset =>
        (recordingMemory m).load buffer (base ||| offset))
      (((List.range (2 ^ targets.length)).map (deposit targets)).map fun offset =>
        buffer.getD (base ||| offset) 0)
      ((List.range (2 ^ targets.length)).map fun l => .load (base ||| deposit targets l)) := by
    have hoffsets : ((List.range (2 ^ targets.length)).map fun l =>
        Access.load (base ||| deposit targets l)) =
        ((List.range (2 ^ targets.length)).map (deposit targets)).map fun offset =>
          .load (base ||| offset) := by
      rw [List.map_map]
      rfl
    rw [hoffsets]
    refine .mapM fun offset ho => ?_
    obtain ⟨l, -, rfl⟩ := List.mem_map.mp ho
    exact .recordedAs (by simp [Array.getD, hbase l])
  have hgroup : (((List.range (2 ^ targets.length)).map (deposit targets)).map fun offset =>
      buffer.getD (base ||| offset) 0).length = 2 ^ targets.length := by simp
  have hrows : (0 + 2 ^ targets.length) * 2 ^ targets.length ≤ m.size := by rwa [Nat.zero_add]
  have hwrite := makes_writeRowsVia hgroup hrows hbase
  rw [← List.range_eq_range'] at hwrite
  exact hload.bind hwrite

theorem lor_deposit_lt {targets : List ℕ} {n base : ℕ} (ht : ∀ q ∈ targets, q < n)
    (hbase : base < 2 ^ n) (l : ℕ) : base ||| deposit targets l < 2 ^ n :=
  Nat.or_lt_two_pow hbase (deposit_lt ht l)

omit [Scalar α] in
theorem flatMap_bases (targets : List ℕ) (size : ℕ) (f : ℕ → List β) :
    (bases targets size).flatMap f =
      (List.range size).flatMap fun base =>
        if base &&& targetMask targets = 0 then f base else [] := by
  rw [bases]
  generalize List.range size = xs
  induction xs with
  | nil => rfl
  | cons x rest ih => by_cases h : x &&& targetMask targets = 0 <;> simp [h, ih]

theorem makes_applyMatrixVia {targets : List ℕ} {n : ℕ} (ht : ∀ q ∈ targets, q < n)
    {m : Array (Cplx α)} (hm : 2 ^ targets.length * 2 ^ targets.length ≤ m.size)
    {buffer : Array (Cplx α)} (hsize : buffer.size = 2 ^ n) :
    Makes (applyMatrixVia (recordingMemory m) targets buffer) (applyMatrix targets m buffer)
      (accesses targets (2 ^ n)) := by
  rw [accesses, flatMap_bases, ← hsize]
  refine Makes.foldlM (P := fun b => b.size = buffer.size) (fun b hb base hbase => ?_) rfl
  have hbase : base < 2 ^ n := hsize ▸ List.mem_range.mp hbase
  by_cases hclear : base &&& targetMask targets = 0
  · rw [if_pos hclear, if_pos hclear, if_pos hclear]
    have hmember (l : ℕ) : base ||| deposit targets l < b.size := by
      rw [hb, hsize]
      exact lor_deposit_lt ht hbase l
    exact ⟨makes_updateGroupVia hm hmember, by simp [hb]⟩
  · rw [if_neg hclear, if_neg hclear, if_neg hclear]
    exact ⟨.pure b, hb⟩

end Record

/-! ## Groups in the record -/

section Groups

variable {targets : List ℕ} {n : ℕ}

theorem inRange_of_mem_groupAccesses (hn : ∀ q ∈ targets, q < n) {base : ℕ} (hbase : base < 2 ^ n)
    {a : Access} (ha : a ∈ groupAccesses targets base) :
    a.InRange (2 ^ targets.length * 2 ^ targets.length) (2 ^ n) := by
  simp only [groupAccesses, List.mem_append, List.mem_map, List.mem_flatMap, List.mem_range,
    List.mem_singleton] at ha
  rcases ha with ⟨l, -, rfl⟩ | ⟨row, hrow, ⟨l, hl, rfl⟩ | rfl⟩
  · exact lor_deposit_lt hn hbase l
  · exact mul_add_lt_mul hrow hl
  · exact lor_deposit_lt hn hbase row

theorem mem_bases {size base : ℕ} :
    base ∈ bases targets size ↔ base < size ∧ cleared targets base = base := by
  simp [bases, and_targetMask_eq_zero]

theorem inRange_of_mem_accesses (hn : ∀ q ∈ targets, q < n) {a : Access}
    (ha : a ∈ accesses targets (2 ^ n)) :
    a.InRange (2 ^ targets.length * 2 ^ targets.length) (2 ^ n) := by
  obtain ⟨base, hbase, ha⟩ := List.mem_flatMap.mp ha
  exact inRange_of_mem_groupAccesses hn (mem_bases.mp hbase).1 ha

theorem cleared_of_mem_groupAccesses {base : ℕ} (hbase : cleared targets base = base) {a : Access}
    (ha : a ∈ groupAccesses targets base) {i : ℕ} (hi : i ∈ a.place?) :
    cleared targets i = base := by
  have hmember (l : ℕ) : cleared targets (base ||| deposit targets l) = base := by
    have h := cleared_member targets base l
    rwa [member, hbase] at h
  simp only [groupAccesses, List.mem_append, List.mem_map, List.mem_flatMap, List.mem_range,
    List.mem_singleton] at ha
  rcases ha with ⟨l, -, rfl⟩ | ⟨row, -, ⟨l, -, rfl⟩ | rfl⟩
  · cases hi
    exact hmember l
  · cases hi
  · cases hi
    exact hmember row

/-- In the record the accesses of a group stand together, and no other access touches a member of
the group. -/
theorem exists_accesses_eq_append {x : ℕ} (hx : x < 2 ^ n) :
    ∃ before after,
      accesses targets (2 ^ n) = before ++ groupAccesses targets (cleared targets x) ++ after ∧
      ∀ a ∈ before ++ after, ∀ i ∈ a.place?, cleared targets i ≠ cleared targets x := by
  have hmem : cleared targets x ∈ bases targets (2 ^ n) :=
    mem_bases.mpr ⟨(cleared_le targets x).trans_lt hx, cleared_cleared targets x⟩
  obtain ⟨before, after, hsplit⟩ := List.append_of_mem hmem
  have hnodup : (bases targets (2 ^ n)).Nodup := List.nodup_range.filter _
  rw [hsplit] at hnodup
  have hother : ∀ base ∈ before ++ after, base ≠ cleared targets x := by
    rintro base hbase rfl
    exact (List.nodup_middle.mp hnodup).notMem hbase
  have hbases : ∀ base ∈ before ++ after, cleared targets base = base := by
    intro base hbase
    refine (mem_bases.mp (?_ : base ∈ bases targets (2 ^ n))).2
    rw [hsplit]
    grind
  refine ⟨before.flatMap (groupAccesses targets), after.flatMap (groupAccesses targets), ?_, ?_⟩
  · rw [accesses, hsplit, List.flatMap_append, List.flatMap_cons, List.append_assoc]
  · intro a ha i hi
    rw [← List.flatMap_append] at ha
    obtain ⟨base, hbase, ha⟩ := List.mem_flatMap.mp ha
    rw [cleared_of_mem_groupAccesses (hbases base hbase) ha hi]
    exact hother base hbase

end Groups

/-! ## The kernel is its matrix -/

theorem testBit_gather {ι : Type} (x : ι → Bool) {names : List ι} {j : ℕ}
    (hj : j < names.length) : (Ket.gather x names).testBit j = x names[j] := by
  induction names generalizing j with
  | nil => simp at hj
  | cons q rest ih =>
    have hb := Bool.toNat_le (x q)
    cases j with
    | zero => cases h : x q <;> simp [Ket.gather, h]
    | succ j =>
      have hdiv : Ket.gather x (q :: rest) / 2 = Ket.gather x rest := by
        rw [Ket.gather]
        omega
      rw [Nat.testBit_succ, hdiv]
      exact ih (by simpa using hj)

section Operator

variable [Scalar α]

theorem addProducts_map_range' (m : Array (Cplx α)) (f : ℕ → Cplx α) (k start count : ℕ)
    (total : Cplx α) :
    addProducts m (k + start) ((List.range' start count).map f) total =
      ((List.range' start count).map fun l => m.getD (k + l) 0 * f l).foldl (· + ·) total := by
  induction count generalizing start total with
  | zero => rfl
  | succ count ih =>
    rw [List.range'_succ, List.map_cons, List.map_cons, List.foldl_cons, addProducts]
    exact ih (start + 1) _

theorem denseEntry_eq_sum (targets : List ℕ) (m buffer : Array (Cplx α)) (x : ℕ) :
    denseEntry targets m buffer x =
      Cplx.sum ((List.range (2 ^ targets.length)).map fun l =>
        m.getD (Ket.gather x.testBit targets * 2 ^ targets.length + l) 0 *
          buffer.getD (cleared targets x ||| deposit targets l) 0) := by
  rw [denseEntry, rowProduct, groupOf, List.range_eq_range', Cplx.sum]
  exact addProducts_map_range' m _ _ 0 _ 0

/-- The dense kernel is the matrix on the target bits: every entry is the row of its local index
times the group of the entry, summed from the left. The kernel touches the groups one after
another and within the buffer, and for no entry does it look at a member of another group. -/
theorem applyMatrix_multiplies_groups {targets : List ℕ} {n : ℕ} {m buffer : Array (Cplx α)}
    (ht : targets.Nodup) (hn : ∀ q ∈ targets, q < n)
    (hm : m.size = 2 ^ targets.length * 2 ^ targets.length) (hsize : buffer.size = 2 ^ n) :
    (applyMatrix targets m buffer).size = 2 ^ n ∧
      (∀ x < 2 ^ n, ∃ r < 2 ^ targets.length,
        (∀ (j : ℕ) (hj : j < targets.length), r.testBit j = x.testBit targets[j]) ∧
        (applyMatrix targets m buffer)[x]? =
          some (Cplx.sum ((List.range (2 ^ targets.length)).map fun l =>
            m.getD (r * 2 ^ targets.length + l) 0 *
              buffer.getD (cleared targets x ||| deposit targets l) 0))) ∧
      applyMatrixVia (plainMemory m) targets buffer = applyMatrix targets m buffer ∧
      Makes (applyMatrixVia (recordingMemory m) targets buffer) (applyMatrix targets m buffer)
        (accesses targets (2 ^ n)) ∧
      (∀ a ∈ accesses targets (2 ^ n), a.InRange m.size (2 ^ n)) ∧
      ∀ x < 2 ^ n, ∃ before after,
        accesses targets (2 ^ n) = before ++ groupAccesses targets (cleared targets x) ++ after ∧
        ∀ a ∈ before ++ after, ∀ i ∈ a.place?, cleared targets i ≠ cleared targets x := by
  have hsize' : (applyMatrix targets m buffer).size = 2 ^ n := by rw [size_applyMatrix, hsize]
  refine ⟨hsize', fun x hx => ?_, applyMatrixVia_plain targets m buffer,
    makes_applyMatrixVia hn hm.ge hsize, fun a ha => hm ▸ inRange_of_mem_accesses hn ha,
    fun x hx => exists_accesses_eq_append hx⟩
  refine ⟨Ket.gather x.testBit targets, Ket.gather_lt _ _, fun j hj => testBit_gather _ hj, ?_⟩
  have hentry := getD_applyMatrix ht hn hsize m hx
  rw [denseEntry_eq_sum] at hentry
  rw [← hentry]
  simp [Array.getD, hsize', hx]

/-- Two targets in falling order with a bit between them. -/
theorem applyMatrix_multiplies_groups_falling :
    [2, 0].Nodup ∧ (∀ q ∈ [2, 0], q < 3) ∧
      Makes
        (applyMatrixVia (recordingMemory (Array.replicate 16 (1 : Cplx ℝ))) [2, 0]
          (Array.replicate 8 1))
        (applyMatrix [2, 0] (Array.replicate 16 (1 : Cplx ℝ)) (Array.replicate 8 1))
        (accesses [2, 0] (2 ^ 3)) ∧
      ∃ before after,
        accesses [2, 0] (2 ^ 3) = before ++ groupAccesses [2, 0] (cleared [2, 0] 6) ++ after ∧
        ∀ a ∈ before ++ after, ∀ i ∈ a.place?, cleared [2, 0] i ≠ cleared [2, 0] 6 := by
  have ht : [2, 0].Nodup := by decide
  have hn : ∀ q ∈ [2, 0], q < 3 := by decide
  have hm : (Array.replicate 16 (1 : Cplx ℝ)).size = 2 ^ [2, 0].length * 2 ^ [2, 0].length := by
    simp
  have hsize : (Array.replicate 8 (1 : Cplx ℝ)).size = 2 ^ 3 := by simp
  obtain ⟨-, -, -, hrun, -, hapart⟩ := applyMatrix_multiplies_groups ht hn hm hsize
  exact ⟨ht, hn, hrun, hapart 6 (by decide)⟩

end Operator

end KetSim.Engine

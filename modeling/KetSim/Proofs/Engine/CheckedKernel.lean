import KetSim.Proofs.Engine.Chunk
import KetSim.Proofs.Engine.Kernel
import KetSim.Proofs.Outcome

/-! # Checked kernels

The kernels once more, on words of 64 bits and with every access checked: a shift
by the width of a word or more, or an index beyond the end of a buffer, leaves no
answer. On a buffer with one entry for each index of a register every gate that
fits has an answer, and it is that of the kernel without checks.
-/
namespace KetSim.Engine

variable {α β γ : Type}

/-! ## Loops -/

/-- A loop whose steps keep an invariant and have their answers under it has an answer. -/
theorem foldlM_eq_some {f : β → γ → β} {f? : β → γ → Option β} {P : β → Prop} {xs : List γ}
    (step : ∀ b, P b → ∀ x ∈ xs, f? b x = some (f b x) ∧ P (f b x)) {b : β} (hb : P b) :
    xs.foldlM f? b = some (xs.foldl f b) ∧ P (xs.foldl f b) := by
  induction xs generalizing b with
  | nil => exact ⟨rfl, hb⟩
  | cons x rest ih =>
    obtain ⟨hx, hnext⟩ := step b hb x List.mem_cons_self
    have hrest := ih (fun b hb y hy => step b hb y (List.mem_cons_of_mem _ hy)) hnext
    rw [List.foldlM_cons, hx]
    exact hrest

theorem mapM_eq_map {f : β → γ} {f? : β → Option γ} {xs : List β}
    (h : ∀ x ∈ xs, f? x = some (f x)) : xs.mapM f? = some (xs.map f) := by
  rw [mapM_eq_some]
  induction xs with
  | nil => exact .nil
  | cons x rest ih =>
    exact .cons (h x List.mem_cons_self) (ih fun y hy => h y (List.mem_cons_of_mem _ hy))

/-! ## Words -/

/-- The word with one bit set. -/
def bit? (q : ℕ) : Option ℕ := if q < 64 then some (2 ^ q) else none

def testBit? (i k : ℕ) : Option Bool := if k < 64 then some (i.testBit k) else none

def mask? (qubits : List ℕ) : Option ℕ :=
  qubits.foldlM (fun acc q => (bit? q).map (acc ||| ·)) 0

def deposit? (targets : List ℕ) (i : ℕ) : Option ℕ :=
  targets.zipIdx.foldlM (fun acc (q, k) => do
    let isSet ← testBit? i k
    if isSet then (bit? q).map (acc ||| ·) else some acc) 0

theorem bit?_eq {q : ℕ} (h : q < 64) : bit? q = some (2 ^ q) := if_pos h

theorem testBit?_eq {k : ℕ} (h : k < 64) (i : ℕ) : testBit? i k = some (i.testBit k) := if_pos h

theorem mask?_eq {qubits : List ℕ} (h : ∀ q ∈ qubits, q < 64) :
    mask? qubits = some (targetMask qubits) := by
  refine (foldlM_eq_some (P := fun _ => True) (fun acc _ q hq => ⟨?_, trivial⟩) trivial).1
  rw [bit?_eq (h q hq)]
  rfl

theorem deposit?_eq {targets : List ℕ} (h : ∀ q ∈ targets, q < 64) (hlength : targets.length ≤ 64)
    (i : ℕ) : deposit? targets i = some (deposit targets i) := by
  refine (foldlM_eq_some (P := fun _ => True) (fun acc _ pair hpair => ⟨?_, trivial⟩) trivial).1
  obtain ⟨q, k⟩ := pair
  have hk : k < targets.length := by simpa using List.snd_lt_of_mem_zipIdx hpair
  have hq : q < 64 := h q (List.fst_mem_of_mem_zipIdx hpair)
  have hword : k < 64 := by omega
  simp only [testBit?_eq hword, bit?_eq hq, Option.bind_eq_bind, Option.bind_some]
  cases i.testBit k <;> rfl

theorem and_two_pow_eq_zero {x q : ℕ} : x &&& 2 ^ q = 0 ↔ x.testBit q = false := by
  rw [Nat.and_two_pow]
  cases x.testBit q <;> simp

theorem ite_and_two_pow (x q : ℕ) (a b : β) :
    (if x &&& 2 ^ q = 0 then a else b) = if x.testBit q then b else a := by
  simp only [and_two_pow_eq_zero]
  cases x.testBit q <;> rfl

/-- All bits of a mask are set in a word if each one is. -/
theorem and_targetMask_eq_self {qubits : List ℕ} {x : ℕ} :
    x &&& targetMask qubits = targetMask qubits ↔ qubits.all x.testBit = true := by
  rw [List.all_eq_true]
  constructor
  · intro h q hq
    have hbit := congrArg (·.testBit q) h
    simpa [hq] using hbit
  · intro h
    apply Nat.eq_of_testBit_eq
    intro p
    rw [Nat.testBit_and, testBit_targetMask]
    by_cases hp : p ∈ qubits
    · simp [hp, h p hp]
    · simp [hp]

/-! ## Sweeps -/

def write? (buffer : Array β) (i : ℕ) (a : β) : Option (Array β) :=
  if i < buffer.size then some (buffer.setIfInBounds i a) else none

theorem write?_eq {buffer : Array β} {i : ℕ} (h : i < buffer.size) (a : β) :
    write? buffer i a = some (buffer.setIfInBounds i a) := if_pos h

def updatePair? (step : β → β → β × β) (buffer : Array β) (i j : ℕ) : Option (Array β) := do
  let a ← buffer[i]?
  let b ← buffer[j]?
  let (a', b') := step a b
  let buffer ← write? buffer i a'
  write? buffer j b'

def sweepPairs? (selected : ℕ → Bool) (partner : ℕ → ℕ) (step : β → β → β × β)
    (buffer : Array β) : Option (Array β) :=
  (List.range buffer.size).foldlM
    (fun b i => if selected i then updatePair? step b i (partner i) else some b) buffer

def sweepSwaps? (selected : ℕ → Bool) (partner : ℕ → ℕ) (buffer : Array β) : Option (Array β) :=
  sweepPairs? selected partner (fun a b => (b, a)) buffer

theorem updatePair?_eq (step : β → β → β × β) {buffer : Array β} {i j : ℕ} (hi : i < buffer.size)
    (hj : j < buffer.size) :
    updatePair? step buffer i j = some (updatePair step buffer i j) := by
  have hwrite (a b : β) : (write? buffer i a >>= fun buffer => write? buffer j b) =
      some ((buffer.setIfInBounds i a).setIfInBounds j b) := by
    rw [write?_eq hi]
    exact write?_eq (by simpa using hj) b
  simp only [updatePair?, updatePair, Array.getElem?_eq_getElem hi, Array.getElem?_eq_getElem hj,
    Option.bind_eq_bind, Option.bind_some]
  exact hwrite _ _

/-- A sweep has an answer if the partners of the selected indices lie in the buffer. -/
theorem sweepPairs?_eq {selected : ℕ → Bool} {partner : ℕ → ℕ} (step : β → β → β × β)
    {buffer : Array β} (h : ∀ i < buffer.size, selected i = true → partner i < buffer.size) :
    sweepPairs? selected partner step buffer = some (sweepPairs selected partner step buffer) := by
  refine (foldlM_eq_some (P := fun b => b.size = buffer.size) (fun b hb i hi => ?_) rfl).1
  have hi : i < buffer.size := List.mem_range.mp hi
  cases hs : selected i with
  | false => exact ⟨rfl, hb⟩
  | true =>
    have hpartner := h i hi hs
    exact ⟨updatePair?_eq step (by omega) (by omega), by simp [hb]⟩

/-! ## Dense matrices -/

section Dense

variable [Scalar α]

def addProducts? (m : Array (Cplx α)) : ℕ → List (Cplx α) → Cplx α → Option (Cplx α)
  | _, [], total => some total
  | k, b :: rest, total => do
    let a ← m[k]?
    addProducts? m (k + 1) rest (total + a * b)

def writeRows? (m : Array (Cplx α)) (dim base : ℕ) (group : List (Cplx α)) :
    ℕ → List ℕ → Array (Cplx α) → Option (Array (Cplx α))
  | _, [], buffer => some buffer
  | row, offset :: rest, buffer => do
    let a ← addProducts? m (row * dim) group 0
    let buffer ← write? buffer (base ||| offset) a
    writeRows? m dim base group (row + 1) rest buffer

def updateGroup? (offsets : List ℕ) (dim : ℕ) (m : Array (Cplx α)) (buffer : Array (Cplx α))
    (base : ℕ) : Option (Array (Cplx α)) := do
  let group ← offsets.mapM fun offset => buffer[base ||| offset]?
  writeRows? m dim base group 0 offsets buffer

def applyMatrix? (targets : List ℕ) (m : Array (Cplx α)) (buffer : Array (Cplx α)) :
    Option (Array (Cplx α)) := do
  let dim ← bit? targets.length
  let offsets ← (List.range dim).mapM (deposit? targets)
  let mask ← mask? targets
  (List.range buffer.size).foldlM
    (fun b base => if base &&& mask = 0 then updateGroup? offsets dim m b base else some b) buffer

theorem addProducts?_eq {m : Array (Cplx α)} {group : List (Cplx α)} {k : ℕ}
    (h : k + group.length ≤ m.size) (total : Cplx α) :
    addProducts? m k group total = some (addProducts m k group total) := by
  induction group generalizing k total with
  | nil => rfl
  | cons b rest ih =>
    rw [List.length_cons] at h
    have hk : k < m.size := by omega
    have hget : m.getD k 0 = m[k] := by simp [Array.getD, hk]
    rw [addProducts?, addProducts, Array.getElem?_eq_getElem hk, hget]
    exact ih (by omega) _

/-- Entries for a row and for those that follow it. -/
theorem rows_le {row rest dim size : ℕ} (h : (row + (rest + 1)) * dim ≤ size) :
    row * dim + dim ≤ size ∧ (row + 1 + rest) * dim ≤ size := by
  have hnext : (row + 1 + rest) * dim ≤ size := by
    rwa [show row + 1 + rest = row + (rest + 1) by omega]
  refine ⟨?_, hnext⟩
  calc row * dim + dim = (row + 1) * dim := by rw [Nat.add_mul, Nat.one_mul]
    _ ≤ (row + 1 + rest) * dim := Nat.mul_le_mul_right dim (by omega)
    _ ≤ size := hnext

theorem writeRows?_eq {m : Array (Cplx α)} {dim base : ℕ} {group : List (Cplx α)}
    {offsets : List ℕ} {row : ℕ} {buffer : Array (Cplx α)} (hgroup : group.length = dim)
    (hm : (row + offsets.length) * dim ≤ m.size)
    (hoffsets : ∀ o ∈ offsets, base ||| o < buffer.size) :
    writeRows? m dim base group row offsets buffer =
      some (writeRows m dim base group row offsets buffer) := by
  induction offsets generalizing row buffer with
  | nil => rfl
  | cons offset rest ih =>
    obtain ⟨hoffset, hrest⟩ := List.forall_mem_cons.mp hoffsets
    rw [List.length_cons] at hm
    obtain ⟨hrow, hnext⟩ := rows_le hm
    rw [writeRows?, writeRows, addProducts?_eq (by rwa [hgroup]), rowProduct]
    simp only [Option.bind_eq_bind, Option.bind_some, write?_eq hoffset]
    exact ih hnext (by simpa using hrest)

/-- A group is read and written within the buffer if the matrix has a row for each of its
members. -/
theorem updateGroup?_eq {m : Array (Cplx α)} {offsets : List ℕ} {buffer : Array (Cplx α)}
    {base : ℕ} (hm : offsets.length * offsets.length ≤ m.size)
    (hoffsets : ∀ o ∈ offsets, base ||| o < buffer.size) :
    updateGroup? offsets offsets.length m buffer base =
      some (updateGroup offsets offsets.length m buffer base) := by
  have hgroup : (offsets.mapM fun offset => buffer[base ||| offset]?) =
      some (offsets.map fun offset => buffer.getD (base ||| offset) 0) := by
    refine mapM_eq_map fun o ho => ?_
    simp [Array.getD, hoffsets o ho]
  rw [updateGroup?, hgroup]
  exact writeRows?_eq (by simp) (by simpa using hm) hoffsets

theorem deposit_lt {targets : List ℕ} {n : ℕ} (h : ∀ q ∈ targets, q < n) (l : ℕ) :
    deposit targets l < 2 ^ n := by
  apply Nat.lt_pow_two_of_testBit
  intro p hp
  have hnot : p ∉ targets := fun hmem => absurd (h p hmem) (by omega)
  exact testBit_deposit_of_notMem hnot l

/-- On a buffer for all indices of `n` bits a matrix on bits below `n` accesses nothing else. -/
theorem applyMatrix?_eq {targets : List ℕ} {n : ℕ} (hn : n ≤ 64) (ht : ∀ q ∈ targets, q < n)
    (hlength : targets.length < 64) {m : Array (Cplx α)}
    (hm : 2 ^ targets.length * 2 ^ targets.length ≤ m.size) {buffer : Array (Cplx α)}
    (hsize : buffer.size = 2 ^ n) :
    applyMatrix? targets m buffer = some (applyMatrix targets m buffer) := by
  have hword : ∀ q ∈ targets, q < 64 := fun q hq => (ht q hq).trans_le hn
  have hoffsets : (List.range (2 ^ targets.length)).mapM (deposit? targets) =
      some ((List.range (2 ^ targets.length)).map (deposit targets)) :=
    mapM_eq_map fun l _ => deposit?_eq hword hlength.le l
  rw [applyMatrix?, bit?_eq hlength]
  simp only [Option.bind_eq_bind, Option.bind_some, hoffsets, mask?_eq hword]
  refine (foldlM_eq_some (P := fun b => b.size = buffer.size) (fun b hb base hbase => ?_) rfl).1
  have hbase : base < 2 ^ n := hsize ▸ List.mem_range.mp hbase
  by_cases hclear : base &&& targetMask targets = 0
  · have hmembers : ∀ o ∈ (List.range (2 ^ targets.length)).map (deposit targets),
        base ||| o < b.size := by
      intro o ho
      obtain ⟨l, -, rfl⟩ := List.mem_map.mp ho
      rw [hb, hsize]
      exact Nat.or_lt_two_pow hbase (deposit_lt ht l)
    have hlength : ((List.range (2 ^ targets.length)).map (deposit targets)).length *
        ((List.range (2 ^ targets.length)).map (deposit targets)).length ≤ m.size := by
      simpa using hm
    have hgroup := updateGroup?_eq hlength hmembers
    rw [List.length_map, List.length_range] at hgroup
    rw [if_pos hclear, if_pos hclear]
    exact ⟨hgroup, by simp [hb]⟩
  · rw [if_neg hclear, if_neg hclear]
    exact ⟨rfl, hb⟩

/-! ## Blocks -/

def chunkSize? (targets : List ℕ) (size : ℕ) : Option ℕ := do
  let span ← targets.foldlM (fun n q => (bit? (q + 1)).map (max n ·)) 1
  some (max 1 (min span size))

def writeFrom? : ℕ → List β → Array β → Option (Array β)
  | _, [], buffer => some buffer
  | i, a :: rest, buffer => do
    let buffer ← write? buffer i a
    writeFrom? (i + 1) rest buffer

def updateChunk? (targets : List ℕ) (m : Array (Cplx α)) (size : ℕ) (buffer : Array (Cplx α))
    (k : ℕ) : Option (Array (Cplx α)) := do
  let block ← applyMatrix? targets m (buffer.extract (k * size) ((k + 1) * size))
  writeFrom? (k * size) block.toList buffer

def applyChunked? (targets : List ℕ) (m : Array (Cplx α)) (buffer : Array (Cplx α)) :
    Option (Array (Cplx α)) := do
  let size ← chunkSize? targets buffer.size
  (List.range (numChunks targets buffer.size)).foldlM (updateChunk? targets m size) buffer

def applyOn? (device : Device) (targets : List ℕ) (m : Array (Cplx α))
    (buffer : Array (Cplx α)) : Option (Array (Cplx α)) :=
  match device with
  | .cpu => applyMatrix? targets m buffer
  | .gpu => applyChunked? targets m buffer

theorem chunkSize?_eq {targets : List ℕ} (h : ∀ q ∈ targets, q + 1 < 64) (size : ℕ) :
    chunkSize? targets size = some (chunkSize targets size) := by
  have hspan : targets.foldlM (fun n q => (bit? (q + 1)).map (max n ·)) 1 =
      some (targets.foldl (fun n q => max n (2 ^ (q + 1))) 1) := by
    refine (foldlM_eq_some (P := fun _ => True) (fun n _ q hq => ⟨?_, trivial⟩) trivial).1
    rw [bit?_eq (h q hq)]
    rfl
  rw [chunkSize?, hspan]
  rfl

omit [Scalar α] in
theorem writeFrom?_eq {i : ℕ} {entries : List (Cplx α)} {buffer : Array (Cplx α)}
    (h : i + entries.length ≤ buffer.size) :
    writeFrom? i entries buffer = some (writeFrom i entries buffer) := by
  induction entries generalizing i buffer with
  | nil => rfl
  | cons a rest ih =>
    rw [List.length_cons] at h
    have hi : i < buffer.size := by omega
    rw [writeFrom?, writeFrom, write?_eq hi]
    exact ih (by simp; omega)

/-- A block of whole groups is updated within its own bounds. -/
theorem updateChunk?_eq {targets : List ℕ} {s : ℕ} (hs : s ≤ 64) (ht : ∀ q ∈ targets, q < s)
    (hlength : targets.length < 64) {m : Array (Cplx α)}
    (hm : 2 ^ targets.length * 2 ^ targets.length ≤ m.size) {buffer : Array (Cplx α)} {k : ℕ}
    (hk : (k + 1) * 2 ^ s ≤ buffer.size) :
    updateChunk? targets m (2 ^ s) buffer k = some (updateChunk targets m (2 ^ s) buffer k) := by
  have hmul : (k + 1) * 2 ^ s = k * 2 ^ s + 2 ^ s := by rw [Nat.add_mul, Nat.one_mul]
  have hblock : (buffer.extract (k * 2 ^ s) ((k + 1) * 2 ^ s)).size = 2 ^ s := by
    rw [Array.size_extract, Nat.min_eq_left hk, hmul, Nat.add_sub_cancel_left]
  rw [updateChunk?, applyMatrix?_eq hs ht hlength hm hblock]
  refine writeFrom?_eq ?_
  rw [Array.length_toList, size_applyMatrix, hblock]
  omega

theorem applyChunked?_eq {targets : List ℕ} {n : ℕ} (hn : n < 64) (ht : ∀ q ∈ targets, q < n)
    (hlength : targets.length < 64) {m : Array (Cplx α)}
    (hm : 2 ^ targets.length * 2 ^ targets.length ≤ m.size) {buffer : Array (Cplx α)}
    (hsize : buffer.size = 2 ^ n) :
    applyChunked? targets m buffer = some (applyChunked targets m buffer) := by
  obtain ⟨s, hsn, hchunk, hs⟩ := chunkSize_eq_two_pow ht
  have hwords : ∀ q ∈ targets, q + 1 < 64 := by
    intro q hq
    have hqn := ht q hq
    omega
  rw [applyChunked?, chunkSize?_eq hwords, applyChunked, applyChunks, hsize, hchunk,
    numChunks_eq_two_pow hsn hchunk]
  have hmul : 2 ^ n = 2 ^ (n - s) * 2 ^ s := by rw [← pow_add, Nat.sub_add_cancel hsn]
  refine (foldlM_eq_some (P := fun b => b.size = 2 ^ n) (fun b hb k hk => ?_) hsize).1
  have hlast : (k + 1) * 2 ^ s ≤ b.size := by
    rw [hb, hmul]
    exact Nat.mul_le_mul_right _ (List.mem_range.mp hk)
  refine ⟨updateChunk?_eq (by omega) hs hlength hm hlast, ?_⟩
  simp [updateChunk, hb]

theorem applyOn?_eq (device : Device) {targets : List ℕ} {n : ℕ} (hn : n < 64)
    (ht : ∀ q ∈ targets, q < n) (hlength : targets.length < 64) {m : Array (Cplx α)}
    (hm : 2 ^ targets.length * 2 ^ targets.length ≤ m.size) {buffer : Array (Cplx α)}
    (hsize : buffer.size = 2 ^ n) :
    applyOn? device targets m buffer = some (applyOn device targets m buffer) := by
  cases device with
  | cpu => exact applyMatrix?_eq hn.le ht hlength hm hsize
  | gpu => exact applyChunked?_eq hn ht hlength hm hsize

end Dense

/-! ## Gates -/

section Gates

variable [Scalar α]

def updateQubit? (q : ℕ) (step : Cplx α → Cplx α → Cplx α × Cplx α) (buffer : Array (Cplx α)) :
    Option (Array (Cplx α)) := do
  let bit ← bit? q
  sweepPairs? (fun i => decide (i &&& bit = 0)) (· ||| bit) step buffer

def flipControlled? (controls : List ℕ) (q : ℕ) (buffer : Array (Cplx α)) :
    Option (Array (Cplx α)) := do
  let mask ← mask? controls
  let bit ← bit? q
  sweepSwaps? (fun i => decide (i &&& mask = mask) && decide (i &&& bit = 0)) (· ||| bit) buffer

def swapControlled? (controls : List ℕ) (a b : ℕ) (buffer : Array (Cplx α)) :
    Option (Array (Cplx α)) := do
  let mask ← mask? controls
  let first ← bit? a
  let second ← bit? b
  sweepSwaps?
    (fun i => decide (i &&& mask = mask) && !decide (i &&& first = 0) && decide (i &&& second = 0))
    (fun i => (i ^^^ first) ||| second) buffer

def negateWhere? (qubits : List ℕ) (buffer : Array (Cplx α)) : Option (Array (Cplx α)) := do
  let mask ← mask? qubits
  some (sweepEach (fun i a => if i &&& mask = mask then -a else a) buffer)

def turnWhere? (q : ℕ) (angle : α) (buffer : Array (Cplx α)) : Option (Array (Cplx α)) := do
  let bit ← bit? q
  let phase := Cplx.cis angle
  some (sweepEach (fun i a => if i &&& bit = 0 then a else a * phase) buffer)

def turnEach? (q : ℕ) (clear set : α) (buffer : Array (Cplx α)) : Option (Array (Cplx α)) := do
  let bit ← bit? q
  let phase0 := Cplx.cis clear
  let phase1 := Cplx.cis set
  some (sweepEach (fun i a => if i &&& bit = 0 then a * phase0 else a * phase1) buffer)

def applyU? (q : ℕ) (theta phi lam : α) (buffer : Array (Cplx α)) : Option (Array (Cplx α)) :=
  let c := Scalar.cos (theta / Scalar.two)
  let s := Scalar.sin (theta / Scalar.two)
  updateQubit? q (stepU c (Cplx.scale s (Cplx.cis lam)) (Cplx.scale s (Cplx.cis phi))
    (Cplx.scale c (Cplx.cis (phi + lam)))) buffer

def Gate.apply? (g : Gate α) (buffer : Array (Cplx α)) : Option (Array (Cplx α)) :=
  match g with
  | .x q => flipControlled? [] q buffer
  | .y q => updateQubit? q stepY buffer
  | .z q => negateWhere? [q] buffer
  | .h q => updateQubit? q (stepH (1 / Scalar.sqrt Scalar.two)) buffer
  | .s q => turnWhere? q (Scalar.pi / Scalar.two) buffer
  | .sdag q => turnWhere? q (-(Scalar.pi / Scalar.two)) buffer
  | .t q => turnWhere? q (Scalar.pi / Scalar.ofNat 4) buffer
  | .tdag q => turnWhere? q (-(Scalar.pi / Scalar.ofNat 4)) buffer
  | .sqrtX _ | .sqrtXdag _ => applyMatrix? g.qubits g.matrix buffer
  | .rx q theta =>
    updateQubit? q (stepRx (Scalar.cos (theta / Scalar.two)) (Scalar.sin (theta / Scalar.two)))
      buffer
  | .ry q theta =>
    updateQubit? q (stepRy (Scalar.cos (theta / Scalar.two)) (Scalar.sin (theta / Scalar.two)))
      buffer
  | .rz q theta => turnEach? q (theta / Scalar.two) (-theta / Scalar.two) buffer
  | .u1 q lam => turnWhere? q lam buffer
  | .u2 q phi lam => applyU? q (Scalar.pi / Scalar.two) phi lam buffer
  | .u3 q theta phi lam => applyU? q theta phi lam buffer
  | .cnot c q => flipControlled? [c] q buffer
  | .cz c q => negateWhere? [c, q] buffer
  | .swap a b => swapControlled? [] a b buffer
  | .toffoli c d q => flipControlled? [c, d] q buffer
  | .fredkin c a b => swapControlled? [c] a b buffer

variable {n : ℕ} {buffer : Array (Cplx α)}

omit [Scalar α] in
theorem decide_and_two_pow (i q : ℕ) : decide (i &&& 2 ^ q = 0) = !i.testBit q := by
  simp only [and_two_pow_eq_zero, Bool.decide_eq_false]

theorem decide_and_targetMask (i : ℕ) (qubits : List ℕ) :
    decide (i &&& targetMask qubits = targetMask qubits) = qubits.all i.testBit := by
  simp only [and_targetMask_eq_self, Bool.decide_eq_true]

omit [Scalar α] in
theorem updateQubit?_eq (hn : n ≤ 64) (hsize : buffer.size = 2 ^ n) {q : ℕ} (hq : q < n)
    (step : Cplx α → Cplx α → Cplx α × Cplx α) :
    updateQubit? q step buffer = some (updateQubit q step buffer) := by
  rw [updateQubit?, bit?_eq (hq.trans_le hn)]
  simp only [Option.bind_eq_bind, Option.bind_some, decide_and_two_pow]
  refine sweepPairs?_eq step fun i hi _ => ?_
  rw [hsize] at hi ⊢
  exact Nat.or_lt_two_pow hi (Nat.pow_lt_pow_right (by omega) hq)

omit [Scalar α] in
theorem flipControlled?_eq (hn : n ≤ 64) (hsize : buffer.size = 2 ^ n) {controls : List ℕ} {q : ℕ}
    (hc : ∀ c ∈ controls, c < n) (hq : q < n) :
    flipControlled? controls q buffer = some (flipControlled controls q buffer) := by
  rw [flipControlled?, mask?_eq fun c hm => (hc c hm).trans_le hn, bit?_eq (hq.trans_le hn)]
  simp only [Option.bind_eq_bind, Option.bind_some, decide_and_two_pow, decide_and_targetMask]
  refine sweepPairs?_eq _ fun i hi _ => ?_
  rw [hsize] at hi ⊢
  exact Nat.or_lt_two_pow hi (Nat.pow_lt_pow_right (by omega) hq)

omit [Scalar α] in
theorem swapControlled?_eq (hn : n ≤ 64) (hsize : buffer.size = 2 ^ n) {controls : List ℕ}
    {a b : ℕ} (hc : ∀ c ∈ controls, c < n) (ha : a < n) (hb : b < n) :
    swapControlled? controls a b buffer = some (swapControlled controls a b buffer) := by
  rw [swapControlled?, mask?_eq fun c hm => (hc c hm).trans_le hn, bit?_eq (ha.trans_le hn),
    bit?_eq (hb.trans_le hn)]
  simp only [Option.bind_eq_bind, Option.bind_some, decide_and_two_pow, decide_and_targetMask,
    Bool.not_not]
  refine sweepPairs?_eq _ fun i hi _ => ?_
  have hfirst : 2 ^ a < 2 ^ n := Nat.pow_lt_pow_right (by omega) ha
  have hsecond : 2 ^ b < 2 ^ n := Nat.pow_lt_pow_right (by omega) hb
  rw [hsize] at hi ⊢
  exact Nat.or_lt_two_pow (Nat.xor_lt_two_pow hi hfirst) hsecond

theorem negateWhere?_eq {qubits : List ℕ} (h : ∀ q ∈ qubits, q < 64) (buffer : Array (Cplx α)) :
    negateWhere? qubits buffer = some (negateWhere qubits buffer) := by
  rw [negateWhere?, mask?_eq h]
  simp only [Option.bind_eq_bind, Option.bind_some, and_targetMask_eq_self]
  rfl

theorem turnWhere?_eq {q : ℕ} (h : q < 64) (angle : α) (buffer : Array (Cplx α)) :
    turnWhere? q angle buffer = some (turnWhere q angle buffer) := by
  rw [turnWhere?, bit?_eq h]
  simp only [Option.bind_eq_bind, Option.bind_some, ite_and_two_pow]
  rfl

theorem turnEach?_eq {q : ℕ} (h : q < 64) (clear set : α) (buffer : Array (Cplx α)) :
    turnEach? q clear set buffer = some (turnEach q clear set buffer) := by
  rw [turnEach?, bit?_eq h]
  simp only [Option.bind_eq_bind, Option.bind_some, ite_and_two_pow]
  rfl

omit [Scalar α] in
theorem Gate.length_qubits_le (g : Gate α) : g.qubits.length ≤ 3 := by
  cases g <;> simp [Gate.qubits]

@[simp] theorem Gate.size_matrix (g : Gate α) :
    g.matrix.size = 2 ^ g.qubits.length * 2 ^ g.qubits.length := by
  simp [Gate.matrix, tabulate]

/-- A gate that fits accesses its buffer and moves bits within bounds. -/
theorem Gate.apply?_eq (hn : n < 64) (hsize : buffer.size = 2 ^ n) {g : Gate α} (hg : g.Fits n) :
    g.apply? buffer = some (g.apply buffer) := by
  have hq := hg.lt
  have hword : ∀ q ∈ g.qubits, q < 64 := fun q hm => (hq q hm).trans hn
  have hlength := g.length_qubits_le
  have hdense := applyMatrix?_eq hn.le hq (by omega) (Gate.size_matrix g).ge hsize
  cases g with
  | x q => exact flipControlled?_eq hn.le hsize (by simp) (by simpa [Gate.qubits] using hq)
  | y q | h q | rx q theta | ry q theta | u2 q phi lam | u3 q theta phi lam =>
    exact updateQubit?_eq hn.le hsize (by simpa [Gate.qubits] using hq) _
  | z q | cz c q => exact negateWhere?_eq hword buffer
  | s q | sdag q | t q | tdag q | u1 q lam =>
    exact turnWhere?_eq (by simpa [Gate.qubits] using hword) _ buffer
  | rz q theta => exact turnEach?_eq (by simpa [Gate.qubits] using hword) _ _ buffer
  | sqrtX q | sqrtXdag q => exact hdense
  | cnot c q =>
    obtain ⟨hc, hq⟩ : c < n ∧ q < n := by simpa [Gate.qubits] using hq
    exact flipControlled?_eq hn.le hsize (by simpa using hc) hq
  | swap a b =>
    obtain ⟨ha, hb⟩ : a < n ∧ b < n := by simpa [Gate.qubits] using hq
    exact swapControlled?_eq hn.le hsize (by simp) ha hb
  | toffoli c d q =>
    obtain ⟨hc, hd, hq⟩ : c < n ∧ d < n ∧ q < n := by simpa [Gate.qubits] using hq
    exact flipControlled?_eq hn.le hsize (by simp [hc, hd]) hq
  | fredkin c a b =>
    obtain ⟨hc, ha, hb⟩ : c < n ∧ a < n ∧ b < n := by simpa [Gate.qubits] using hq
    exact swapControlled?_eq hn.le hsize (by simpa using hc) ha hb

end Gates

end KetSim.Engine

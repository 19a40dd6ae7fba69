import KetSim.Proofs.Circuit.Built

/-! # Circuits that compare as equal

Numbers may compare as equal without being the same, as the two zeros do, and so
may circuits. They still have the same wires and the same gates on them, and their
angles have values that arithmetic cannot tell apart.
-/
namespace KetSim

/-- A likeness of scalars that arithmetic respects; alike scalars are zero together. -/
structure Scalar.Congruence {α : Type} [Scalar α] (R : α → α → Prop) : Prop where
  isZero : ∀ {x y}, R x y → Scalar.isZero x = Scalar.isZero y
  neg : ∀ {x y}, R x y → R (-x) (-y)
  add : ∀ {x y x' y'}, R x y → R x' y' → R (x + x') (y + y')
  sub : ∀ {x y x' y'}, R x y → R x' y' → R (x - x') (y - y')
  mul : ∀ {x y x' y'}, R x y → R x' y' → R (x * x') (y * y')
  div : ∀ {x y x' y'}, R x y → R x' y' → Scalar.isZero x' = false → R (x / x') (y / y')

variable {α : Type} [Scalar α]

/-! ## Likeness -/

/-- Both angles have alike values, or neither has a value. -/
def Angle.Alike (R : α → α → Prop) (e f : Angle α) : Prop := Option.Rel R e.halfTurns f.halfTurns

theorem Angle.Alike.isSome_eq {R : α → α → Prop} {e f : Angle α} (h : e.Alike R f) :
    e.halfTurns.isSome = f.halfTurns.isSome := by
  unfold Alike at h
  generalize e.halfTurns = x at h
  generalize f.halfTurns = y at h
  cases h <;> rfl

inductive InstructionKind.Alike (R : α → α → Prop) : InstructionKind α → InstructionKind α → Prop
  | gate {kind : GateKind} {params params' : List (Angle α)}
      (h : List.Forall₂ (Angle.Alike R) params params') :
      Alike R (.gate ⟨kind, params⟩) (.gate ⟨kind, params'⟩)
  | measure : Alike R .measure .measure
  | reset : Alike R .reset .reset
  | barrier : Alike R .barrier .barrier

structure Instruction.Alike (R : α → α → Prop) (i j : Instruction α) : Prop where
  kind : i.kind.Alike R j.kind
  qubits : i.qubits = j.qubits
  clbits : i.clbits = j.clbits

structure Circuit.Alike (R : α → α → Prop) (c d : Circuit α) : Prop where
  qubits : c.qubits = d.qubits
  clbits : c.clbits = d.clbits
  qregs : c.qregs = d.qregs
  instructions : List.Forall₂ (Instruction.Alike R) c.instructions d.instructions

section

variable {R : α → α → Prop}

theorem exists_mem_left {β γ : Type} {S : β → γ → Prop} {xs : List β} {ys : List γ}
    (h : List.Forall₂ S xs ys) {y : γ} (hy : y ∈ ys) : ∃ x ∈ xs, S x y := by
  induction h with
  | nil => cases hy
  | cons head _ ih =>
    rcases List.mem_cons.mp hy with rfl | hy
    · exact ⟨_, List.mem_cons_self, head⟩
    · obtain ⟨x, hx, hxy⟩ := ih hy
      exact ⟨x, List.mem_cons_of_mem _ hx, hxy⟩

theorem pairwise_of_forall₂ {β γ : Type} {S : β → γ → Prop} {P : β → β → Prop} {Q : γ → γ → Prop}
    (hPQ : ∀ {x y x' y'}, S x y → S x' y' → P x x' → Q y y') {xs : List β} {ys : List γ}
    (h : List.Forall₂ S xs ys) (hp : xs.Pairwise P) : ys.Pairwise Q := by
  induction h with
  | nil => exact .nil
  | cons head tail ih =>
    obtain ⟨hx, hrest⟩ := List.pairwise_cons.mp hp
    refine .cons (fun y hy => ?_) (ih hrest)
    obtain ⟨x, hmem, hxy⟩ := exists_mem_left tail hy
    exact hPQ head hxy (hx x hmem)

theorem Instruction.Alike.fits {i j : Instruction α} (h : i.Alike R j) {n m : ℕ}
    (hj : j.Fits n m) : i.Fits n m := by
  obtain ⟨kind, qubits, clbits⟩ := i
  obtain ⟨kind', qubits', clbits'⟩ := j
  obtain ⟨hkind, hq, hb⟩ := h
  obtain rfl : qubits = qubits' := hq
  obtain rfl : clbits = clbits' := hb
  cases hkind with
  | gate hparams =>
    refine ⟨hj.lt, hj.nodup, hj.clbits_lt, ?_, hj.arity, hj.target⟩
    have hp := hj.params
    rename_i kind params params'
    cases kind with
    | standard op => simpa [Circuit.checkParams, hparams.length_eq] using hp
    | custom op => rfl
  | measure => exact hj
  | reset => exact hj
  | barrier => exact hj

theorem Circuit.Alike.wellFormed {c d : Circuit α} (h : c.Alike R d) (hd : d.WellFormed) :
    c.WellFormed := by
  have hn : c.numQubits = d.numQubits := by rw [numQubits, h.qubits, numQubits]
  have hm : c.numClbits = d.numClbits := by rw [numClbits, h.clbits, numClbits]
  refine ⟨by rw [hn, h.qregs]; exact hd.qubits, by rw [hm, h.clbits]; exact hd.clbits, ?_⟩
  intro i hi
  obtain ⟨j, hj, hij⟩ := exists_mem_left h.instructions.flip hi
  rw [hn, hm]
  exact Instruction.Alike.fits hij (hd.instructions j hj)

end

/-! ## Equality as a computation -/

variable [BEq α] {R : α → α → Prop}

theorem forall₂_of_beq {β : Type} [BEq β] {S : β → β → Prop} {xs ys : List β}
    (hS : ∀ x ∈ xs, ∀ y ∈ ys, (x == y) = true → S x y) (h : (xs == ys) = true) :
    List.Forall₂ S xs ys := by
  induction xs generalizing ys with
  | nil =>
    cases ys with
    | nil => exact .nil
    | cons y others => cases h
  | cons x rest ih =>
    cases ys with
    | nil => cases h
    | cons y others =>
      rw [List.cons_beq_cons, Bool.and_eq_true] at h
      refine .cons (hS x List.mem_cons_self y List.mem_cons_self h.1) (ih ?_ h.2)
      exact fun x hx y hy => hS x (List.mem_cons_of_mem _ hx) y (List.mem_cons_of_mem _ hy)

theorem rel_bind {β : Type} {S : β → β → Prop} {x y : Option β} {f g : β → Option β}
    (h : Option.Rel S x y) (hfg : ∀ v w, S v w → Option.Rel S (f v) (g w)) :
    Option.Rel S (x >>= f) (y >>= g) := by
  cases h with
  | none => exact .none
  | some hvw => exact hfg _ _ hvw

theorem rel_bind₂ {β : Type} {S : β → β → Prop} {x y x' y' : Option β} {f : β → β → β}
    (h : Option.Rel S x y) (h' : Option.Rel S x' y')
    (hf : ∀ {v w v' w'}, S v w → S v' w' → S (f v v') (f w w')) :
    Option.Rel S (x >>= fun v => x' >>= fun v' => some (f v v'))
      (y >>= fun w => y' >>= fun w' => some (f w w')) :=
  rel_bind h fun _ _ hv => rel_bind h' fun _ _ hw => .some (hf hv hw)

/-- Angles that compare as equal have alike values. -/
theorem Angle.alike_of_beq (hR : Scalar.Congruence R)
    (hbeq : ∀ x y : α, (x == y) = true → R x y) {e f : Angle α} (h : (e == f) = true) :
    e.Alike R f := by
  unfold Alike
  induction e generalizing f with
  | constant x =>
    cases f with
    | constant y => exact .some (hbeq x y h)
    | _ => cases h
  | symbol x =>
    cases f with
    | symbol y => exact .none
    | _ => cases h
  | neg e ih =>
    cases f with
    | neg f => exact rel_bind (ih h) fun _ _ hv => .some (hR.neg hv)
    | _ => cases h
  | add a b iha ihb =>
    cases f with
    | add c d =>
      obtain ⟨ha, hb⟩ := (Bool.and_eq_true_iff (x := a == c) (y := b == d)).mp h
      exact rel_bind₂ (iha ha) (ihb hb) hR.add
    | _ => cases h
  | sub a b iha ihb =>
    cases f with
    | sub c d =>
      obtain ⟨ha, hb⟩ := (Bool.and_eq_true_iff (x := a == c) (y := b == d)).mp h
      exact rel_bind₂ (iha ha) (ihb hb) hR.sub
    | _ => cases h
  | mul a b iha ihb =>
    cases f with
    | mul c d =>
      obtain ⟨ha, hb⟩ := (Bool.and_eq_true_iff (x := a == c) (y := b == d)).mp h
      exact rel_bind₂ (iha ha) (ihb hb) hR.mul
    | _ => cases h
  | div a b iha ihb =>
    cases f with
    | div c d =>
      obtain ⟨ha, hb⟩ := (Bool.and_eq_true_iff (x := a == c) (y := b == d)).mp h
      refine rel_bind (ihb hb) fun w w' hw => ?_
      cases hzero : Scalar.isZero w with
      | true =>
        rw [← hR.isZero hw, hzero]
        exact .none
      | false =>
        rw [← hR.isZero hw, hzero]
        exact rel_bind (iha ha) fun _ _ hv => .some (hR.div hv hw hzero)
    | _ => cases h

omit [Scalar α] in
theorem Gate.beq_iff {g g' : Gate α} :
    (g == g') = true ↔ g.kind = g'.kind ∧ (g.params == g'.params) = true := by
  have h : (g == g') = (g.kind == g'.kind && g.params == g'.params) := rfl
  simp only [h, Bool.and_eq_true, beq_iff_eq]

theorem InstructionKind.alike_of_beq (hR : Scalar.Congruence R)
    (hbeq : ∀ x y : α, (x == y) = true → R x y) {k l : InstructionKind α} (h : (k == l) = true) :
    k.Alike R l := by
  cases k with
  | gate g =>
    cases l with
    | gate g' =>
      have hg : (g == g') = true := h
      obtain ⟨kind, params⟩ := g
      obtain ⟨rfl, hparams⟩ := Gate.beq_iff.mp hg
      exact .gate (forall₂_of_beq (fun _ _ _ _ => Angle.alike_of_beq hR hbeq) hparams)
    | _ => cases h
  | measure =>
    cases l with
    | measure => exact .measure
    | _ => cases h
  | reset =>
    cases l with
    | reset => exact .reset
    | _ => cases h
  | barrier =>
    cases l with
    | barrier => exact .barrier
    | _ => cases h

omit [Scalar α] in
theorem Instruction.beq_iff {i j : Instruction α} :
    (i == j) = true ↔ (i.kind == j.kind) = true ∧ i.qubits = j.qubits ∧ i.clbits = j.clbits := by
  have h : (i == j) = (i.kind == j.kind && (i.qubits == j.qubits && i.clbits == j.clbits)) := rfl
  simp only [h, Bool.and_eq_true, beq_iff_eq]

omit [Scalar α] in
theorem Circuit.beq_iff {c d : Circuit α} : (c == d) = true ↔ c.name = d.name ∧
    c.qubits = d.qubits ∧ c.clbits = d.clbits ∧ c.qregs = d.qregs ∧
    (c.instructions == d.instructions) = true ∧ (c.phase == d.phase) = true := by
  have h : (c == d) = (c.name == d.name && (c.qubits == d.qubits && (c.clbits == d.clbits &&
    (c.qregs == d.qregs && (c.instructions == d.instructions && c.phase == d.phase))))) := rfl
  simp only [h, Bool.and_eq_true, beq_iff_eq]

omit [Scalar α] in
/-- An instruction that compares as equal to one in line with its kind is in line with its kind. -/
theorem Instruction.Fits.of_beq {i j : Instruction α} (h : (i == j) = true) {n m : ℕ}
    (hj : j.Fits n m) : i.Fits n m := by
  obtain ⟨kind, qubits, clbits⟩ := i
  obtain ⟨kind', qubits', clbits'⟩ := j
  obtain ⟨hkind, hq, hb⟩ := Instruction.beq_iff.mp h
  obtain rfl : qubits = qubits' := hq
  obtain rfl : clbits = clbits' := hb
  cases kind with
  | gate g =>
    cases kind' with
    | gate g' =>
      have hg : (g == g') = true := hkind
      obtain ⟨op, params⟩ := g
      obtain ⟨op', params'⟩ := g'
      obtain ⟨hop, hparams⟩ := Gate.beq_iff.mp hg
      obtain rfl : op = op' := hop
      have hlength := (forall₂_of_beq (S := fun _ _ => True)
        (fun _ _ _ _ _ => trivial) hparams).length_eq
      refine ⟨hj.lt, hj.nodup, hj.clbits_lt, ?_, hj.arity, hj.target⟩
      have hp := hj.params
      cases op with
      | standard op => simpa [Circuit.checkParams, hlength] using hp
      | custom op => rfl
    | _ => cases hkind
  | measure | reset | barrier => cases kind' <;> first | exact hj | cases hkind

omit [Scalar α] in
/-- A circuit that compares as equal to a well-formed one is well-formed. -/
theorem Circuit.WellFormed.of_beq {c d : Circuit α} (h : (c == d) = true) (hd : d.WellFormed) :
    c.WellFormed ∧ c.numQubits = d.numQubits := by
  obtain ⟨-, hqubits, hclbits, hqregs, hinstructions, -⟩ := beq_iff.mp h
  have hn : c.numQubits = d.numQubits := by rw [numQubits, hqubits, numQubits]
  have hm : c.numClbits = d.numClbits := by rw [numClbits, hclbits, numClbits]
  have hsame := forall₂_of_beq (S := fun i j => (i == j) = true)
    (fun _ _ _ _ hij => hij) hinstructions
  refine ⟨⟨by rw [hn, hqregs]; exact hd.qubits, by rw [hm, hclbits]; exact hd.clbits, ?_⟩, hn⟩
  intro i hi
  obtain ⟨j, hj, hij⟩ := exists_mem_left hsame.flip hi
  rw [hn, hm]
  exact .of_beq hij (hd.instructions j hj)

/-- Circuits that compare as equal are alike. -/
theorem Circuit.alike_of_beq (hR : Scalar.Congruence R)
    (hbeq : ∀ x y : α, (x == y) = true → R x y) {c d : Circuit α} (h : (c == d) = true) :
    c.Alike R d := by
  obtain ⟨-, hqubits, hclbits, hqregs, hinstructions, -⟩ := beq_iff.mp h
  refine ⟨hqubits, hclbits, hqregs, forall₂_of_beq (fun i _ j _ hij => ?_) hinstructions⟩
  obtain ⟨hkind, hq, hc⟩ := Instruction.beq_iff.mp hij
  exact ⟨InstructionKind.alike_of_beq hR hbeq hkind, hq, hc⟩

/-! ## Scalars on which comparison tells equality -/

/-- Every constant of an angle satisfies a condition. -/
def Angle.All (S : α → Prop) : Angle α → Prop
  | constant x => S x
  | symbol _ => True
  | neg e => e.All S
  | add a b | sub a b | mul a b | div a b => a.All S ∧ b.All S

/-- The phase and every constant of the angles satisfy a condition. -/
structure Circuit.All (S : α → Prop) (c : Circuit α) : Prop where
  phase : S c.phase
  constants : ∀ g ∈ c.gates, ∀ e ∈ g.params, e.All S

variable {S : α → Prop}

omit [Scalar α] in
theorem Angle.eq_of_beq (hS : ∀ x y, S x → S y → (x == y) = true → x = y) {e f : Angle α}
    (he : e.All S) (hf : f.All S) (h : (e == f) = true) : e = f := by
  induction e generalizing f with
  | constant x =>
    cases f with
    | constant y => rw [hS x y he hf h]
    | _ => cases h
  | symbol x =>
    cases f with
    | symbol y =>
      have hname : (x == y) = true := h
      rw [beq_iff_eq.mp hname]
    | _ => cases h
  | neg e ih =>
    cases f with
    | neg f => rw [ih (f := f) he hf h]
    | _ => cases h
  | add a b iha ihb | sub a b iha ihb | mul a b iha ihb | div a b iha ihb =>
    cases f <;> first
      | cases h
      | obtain ⟨ha, hb⟩ := Bool.and_eq_true_iff.mp h
        rw [iha he.1 hf.1 ha, ihb he.2 hf.2 hb]

omit [Scalar α] in
theorem Instruction.eq_of_beq (hS : ∀ x y, S x → S y → (x == y) = true → x = y)
    {i j : Instruction α} (hi : ∀ g, i.kind = .gate g → ∀ e ∈ g.params, e.All S)
    (hj : ∀ g, j.kind = .gate g → ∀ e ∈ g.params, e.All S) (h : (i == j) = true) : i = j := by
  obtain ⟨hkind, hq, hb⟩ := beq_iff.mp h
  obtain ⟨kind, qubits, clbits⟩ := i
  obtain ⟨kind', qubits', clbits'⟩ := j
  obtain rfl : qubits = qubits' := hq
  obtain rfl : clbits = clbits' := hb
  cases kind with
  | gate g =>
    cases kind' with
    | gate g' =>
      obtain ⟨hop, hparams⟩ := Gate.beq_iff.mp hkind
      have hsame := forall₂_of_beq (S := Eq) (fun e he f hf =>
        Angle.eq_of_beq hS (hi g rfl e he) (hj g' rfl f hf)) hparams
      rw [List.forall₂_eq_eq_eq] at hsame
      obtain ⟨op, params⟩ := g
      obtain rfl : op = _ := hop
      obtain rfl : params = _ := hsame
      rfl
    | _ => cases hkind
  | _ => cases kind' <;> first | rfl | cases hkind

omit [Scalar α] in
/-- Circuits that compare as equal are the same if comparison tells equality of their scalars. -/
theorem Circuit.eq_of_beq (hS : ∀ x y, S x → S y → (x == y) = true → x = y) {c d : Circuit α}
    (hc : c.All S) (hd : d.All S) (h : (c == d) = true) : c = d := by
  have hmem {c : Circuit α} (hc : c.All S) {i : Instruction α} (hi : i ∈ c.instructions)
      (g : Gate α) (hg : i.kind = .gate g) : ∀ e ∈ g.params, e.All S :=
    hc.constants g (mem_gates hi hg)
  obtain ⟨hname, hqubits, hclbits, hqregs, hinstructions, hphase⟩ := beq_iff.mp h
  have hall := forall₂_of_beq (S := Eq) (fun i hi j hj =>
    Instruction.eq_of_beq hS (hmem hc hi) (hmem hd hj)) hinstructions
  rw [List.forall₂_eq_eq_eq] at hall
  have hturns := hS _ _ hc.phase hd.phase hphase
  obtain ⟨name, qubits, clbits, qregs, instructions, phase⟩ := c
  obtain ⟨name', qubits', clbits', qregs', instructions', phase'⟩ := d
  simp only at hname hqubits hclbits hqregs hall hturns
  rw [hname, hqubits, hclbits, hqregs, hall, hturns]

end KetSim

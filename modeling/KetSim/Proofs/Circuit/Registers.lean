import Mathlib
import KetSim.Proofs.Circuit.Built

/-! # Registers

Registers can be declared and extended in any order. A qubit always lies in the
register of its name, at the place that its index tells, and the bits under a
classical name are numbered from zero in the order of their declaration.
-/
namespace KetSim

/-! ## Slots -/

/-- Under every name, slots are numbered from zero in order. -/
def Numbered (slots : List (String × ℕ)) : Prop :=
  ∀ name, (slots.filter (·.1 == name)).map (·.2) = List.range (slots.countP (·.1 == name))

theorem numbered_nil : Numbered [] := fun _ => rfl

theorem Numbered.lt_length {slots : List (String × ℕ)} (h : Numbered slots) {slot : String × ℕ}
    (hslot : slot ∈ slots) : slot.2 < slots.length := by
  have hmem : slot.2 ∈ (slots.filter (·.1 == slot.1)).map (·.2) :=
    List.mem_map.mpr ⟨slot, List.mem_filter.mpr ⟨hslot, beq_self_eq_true _⟩, rfl⟩
  rw [h slot.1, List.mem_range] at hmem
  exact hmem.trans_le List.countP_le_length

/-- The next slots under a name. -/
theorem Numbered.append {slots : List (String × ℕ)} (h : Numbered slots) (name : String) (n : ℕ) :
    Numbered (slots ++ (List.range n).map fun i => (name, slots.countP (·.1 == name) + i)) := by
  intro other
  by_cases hname : name = other
  · subst hname
    have hall : ((List.range n).map fun i => (name, slots.countP (·.1 == name) + i)).filter
        (·.1 == name) = (List.range n).map fun i => (name, slots.countP (·.1 == name) + i) := by
      refine List.filter_eq_self.mpr fun slot hslot => ?_
      obtain ⟨i, -, rfl⟩ := List.mem_map.mp hslot
      exact beq_self_eq_true name
    have hcount := congrArg List.length hall
    rw [← List.countP_eq_length_filter, List.length_map, List.length_range] at hcount
    rw [List.filter_append, List.countP_append, List.map_append, h name, hall, hcount,
      List.range_add, List.map_map]
    rfl
  · have hnone : ((List.range n).map fun i => (name, slots.countP (·.1 == name) + i)).filter
        (·.1 == other) = [] := by
      refine List.filter_eq_nil_iff.mpr fun slot hslot => ?_
      obtain ⟨i, -, rfl⟩ := List.mem_map.mp hslot
      simpa using hname
    have hcount := congrArg List.length hnone
    rw [← List.countP_eq_length_filter, List.length_nil] at hcount
    rw [List.filter_append, List.countP_append, hnone, hcount, List.append_nil, h other,
      Nat.add_zero]

/-! ## Extending a register -/

namespace QuantumRegister

variable {name : String} {ids : List QubitId} {regs : List QuantumRegister}

theorem extend_of_not_mem (h : name ∉ regs.map (·.name)) :
    extend name ids regs = regs ++ [⟨name, ids⟩] := by
  induction regs with
  | nil => rfl
  | cons r rest ih =>
    rw [List.map_cons, List.mem_cons, not_or] at h
    rw [extend, if_neg (Ne.symm h.1), ih h.2]
    rfl

theorem names_extend (name : String) (ids : List QubitId) (regs : List QuantumRegister) :
    (extend name ids regs).map (·.name) =
      if name ∈ regs.map (·.name) then regs.map (·.name) else regs.map (·.name) ++ [name] := by
  induction regs with
  | nil => rfl
  | cons r rest ih =>
    by_cases hname : r.name = name
    · simp [extend, hname]
    · rw [extend, if_neg hname, List.map_cons, ih]
      simp only [List.map_cons, List.mem_cons, Ne.symm hname, false_or]
      split <;> rfl

/-- Registers of other names stay, and the one of the name is new or has grown. -/
theorem mem_extend (hnodup : (regs.map (·.name)).Nodup) {s : QuantumRegister}
    (hs : s ∈ extend name ids regs) : (s ∈ regs ∧ name ≠ s.name) ∨
    (s.name = name ∧ ((name ∉ regs.map (·.name) ∧ s.qubits = ids) ∨
      ∃ r ∈ regs, r.name = name ∧ s.qubits = r.qubits ++ ids)) := by
  induction regs with
  | nil =>
    obtain rfl := List.mem_singleton.mp hs
    exact .inr ⟨rfl, .inl ⟨List.not_mem_nil, rfl⟩⟩
  | cons r rest ih =>
    rw [List.map_cons, List.nodup_cons] at hnodup
    by_cases hname : r.name = name
    · rw [extend, if_pos hname] at hs
      rcases List.mem_cons.mp hs with rfl | hs
      · exact .inr ⟨hname, .inr ⟨r, List.mem_cons_self, hname, rfl⟩⟩
      · have hapart : name ≠ s.name := fun heq =>
          hnodup.1 (hname.trans heq ▸ List.mem_map_of_mem hs)
        exact .inl ⟨List.mem_cons_of_mem _ hs, hapart⟩
    · rw [extend, if_neg hname] at hs
      rcases List.mem_cons.mp hs with rfl | hs
      · exact .inl ⟨List.mem_cons_self, Ne.symm hname⟩
      · obtain ⟨hmem, hne⟩ | ⟨hs, ⟨hnew, hids⟩ | ⟨r', hr', hname', hids⟩⟩ := ih hnodup.2 hs
        · exact .inl ⟨List.mem_cons_of_mem _ hmem, hne⟩
        · refine .inr ⟨hs, .inl ⟨?_, hids⟩⟩
          rw [List.map_cons, List.mem_cons, not_or]
          exact ⟨Ne.symm hname, hnew⟩
        · exact .inr ⟨hs, .inr ⟨r', List.mem_cons_of_mem _ hr', hname', hids⟩⟩

end QuantumRegister

namespace Circuit

variable {α : Type}

/-- Qubits are numbered by declaration, every register holds the qubits that name it in that order,
and the slots under every name are numbered from zero. -/
structure Filed (c : Circuit α) : Prop where
  qubit_ids : c.qubits.map (·.id) = (List.range c.numQubits).map QubitId.mk
  names_nodup : (c.qregs.map (·.name)).Nodup
  held : ∀ r ∈ c.qregs, r.qubits = (c.qubits.filter (·.register == r.name)).map (·.id)
  home : ∀ q ∈ c.qubits, q.register ∈ c.qregs.map (·.name)
  qubits : Numbered (c.qubits.map fun q => (q.register, q.index))
  clbits : Numbered (c.clbits.map fun b => (b.register, b.index))

/-- The next qubits under a name, in the register of that name. -/
def growQubits (c : Circuit α) (name : String) (n : ℕ) : Circuit α :=
  { c with
    qregs := QuantumRegister.extend name ((List.range n).map fun i => ⟨c.numQubits + i⟩) c.qregs
    qubits := c.qubits ++ (List.range n).map fun i =>
      ⟨⟨c.numQubits + i⟩, name, c.qubits.countP (·.register == name) + i⟩ }

/-- The next bits under a classical name. -/
def growClbits (c : Circuit α) (name : String) (n : ℕ) : Circuit α :=
  { c with
    clbits := c.clbits ++ (List.range n).map fun i =>
      ⟨⟨c.numClbits + i⟩, name, c.clbits.countP (·.register == name) + i⟩ }

theorem addClbits_eq_growClbits (c : Circuit α) (n : ℕ) :
    c.addClbits n = c.growClbits defaultClbits n := rfl

theorem addClbitRegister_eq_growClbits {c d : Circuit α} {name : String} {size : ℕ}
    {ids : List ClbitId} (hd : c.addClbitRegister name size = .ok (d, ids)) :
    d = c.growClbits name size := by
  unfold addClbitRegister at hd
  split at hd
  · cases hd
  · rename_i hfree
    have hcount : c.clbits.countP (·.register == name) = 0 := by
      rw [List.countP_eq_zero]
      intro b hb hname
      exact hfree (List.any_eq_true.mpr ⟨b, hb, hname⟩)
    simp only [Except.ok.injEq, Prod.mk.injEq] at hd
    obtain ⟨rfl, -⟩ := hd
    simp only [growClbits, hcount, Nat.zero_add]

namespace Filed

variable {c d : Circuit α}

theorem count_eq_zero (h : c.Filed) {name : String} (hname : name ∉ c.qregs.map (·.name)) :
    c.qubits.countP (·.register == name) = 0 := by
  rw [List.countP_eq_zero]
  intro q hq hregister
  exact hname (beq_iff_eq.mp hregister ▸ h.home q hq)

/-- The size of a register is the number of qubits that name it. -/
theorem sizeOf_eq_count (h : c.Filed) (name : String) :
    QuantumRegister.sizeOf? name c.qregs = c.qubits.countP (·.register == name) := by
  unfold QuantumRegister.sizeOf?
  cases hfind : c.qregs.find? (·.name == name) with
  | none =>
    refine (h.count_eq_zero fun hname => ?_).symm
    obtain ⟨r, hr, hname⟩ := List.mem_map.mp hname
    simpa [hname] using List.find?_eq_none.mp hfind r hr
  | some r =>
    have hname : r.name = name := by simpa using List.find?_some hfind
    have hheld := h.held r (List.mem_of_find?_eq_some hfind)
    simp only [QuantumRegister.size]
    rw [hheld, List.length_map, hname, List.countP_eq_length_filter]

theorem addQubits_eq_growQubits (h : c.Filed) {n : ℕ} (hn : n ≠ 0) :
    c.addQubits n = c.growQubits defaultQubits n := by
  rw [Circuit.addQubits, if_neg hn]
  simp only [growQubits, h.sizeOf_eq_count]

theorem addQubitRegister_eq_growQubits (h : c.Filed) {name : String} {size : ℕ}
    {ids : List QubitId} (hd : c.addQubitRegister name size = .ok (d, ids)) :
    d = c.growQubits name size := by
  unfold Circuit.addQubitRegister at hd
  split at hd
  · cases hd
  · rename_i hfree
    have hname : name ∉ c.qregs.map (·.name) := by
      intro hname
      obtain ⟨r, hr, hname⟩ := List.mem_map.mp hname
      exact hfree (List.any_eq_true.mpr ⟨r, hr, beq_iff_eq.mpr hname⟩)
    simp only [Except.ok.injEq, Prod.mk.injEq] at hd
    obtain ⟨rfl, -⟩ := hd
    simp only [growQubits, h.count_eq_zero hname, Nat.zero_add,
      QuantumRegister.extend_of_not_mem hname]

/-- The qubits of a name after the next ones under a name. -/
theorem filter_growQubits (c : Circuit α) (name : String) (n : ℕ) (other : String) :
    ((c.growQubits name n).qubits.filter (·.register == other)).map (·.id) =
      (c.qubits.filter (·.register == other)).map (·.id) ++
        if name = other then (List.range n).map fun i => ⟨c.numQubits + i⟩ else [] := by
  simp only [Circuit.growQubits, List.filter_append, List.map_append]
  congr 1
  split
  · rename_i hname
    have hall : ∀ q ∈ (List.range n).map fun i =>
        (⟨⟨c.numQubits + i⟩, name, c.qubits.countP (·.register == name) + i⟩ : Qubit),
        (q.register == other) = true := by
      intro q hq
      obtain ⟨i, -, rfl⟩ := List.mem_map.mp hq
      exact beq_iff_eq.mpr hname
    rw [List.filter_eq_self.mpr hall, List.map_map]
    rfl
  · rename_i hname
    rw [List.map_eq_nil_iff, List.filter_eq_nil_iff]
    intro q hq
    obtain ⟨i, -, rfl⟩ := List.mem_map.mp hq
    simpa using hname

/-- New qubits join the register of their name and no other one. -/
theorem growQubits (h : c.Filed) (name : String) (n : ℕ) : (c.growQubits name n).Filed := by
  have hnames := QuantumRegister.names_extend name
    ((List.range n).map fun i => ⟨c.numQubits + i⟩) c.qregs
  refine ⟨?qubit_ids, ?names_nodup, fun r hr => ?held, fun q hq => ?home, ?qubits, h.clbits⟩
  case qubit_ids =>
    have hn : (c.growQubits name n).numQubits = c.numQubits + n := by
      simp [Circuit.growQubits, numQubits]
    rw [hn, range_add_map, ← h.qubit_ids]
    simp [Circuit.growQubits]
  case names_nodup =>
    simp only [Circuit.growQubits, hnames]
    split
    · exact h.names_nodup
    · rename_i hnew
      refine List.nodup_append.mpr ⟨h.names_nodup, List.nodup_singleton name, ?_⟩
      exact fun s hs s' hs' => List.mem_singleton.mp hs' ▸ fun heq => hnew (heq ▸ hs)
  case held =>
    rw [filter_growQubits]
    obtain ⟨hold, hne⟩ | ⟨hname, ⟨hnew, hids⟩ | ⟨old, hold, hname', hids⟩⟩ :=
      QuantumRegister.mem_extend h.names_nodup hr
    · rw [if_neg hne, List.append_nil]
      exact h.held r hold
    · have hnone : c.qubits.filter (·.register == name) = [] := by
        rw [← List.length_eq_zero_iff, ← List.countP_eq_length_filter]
        exact h.count_eq_zero hnew
      rw [hids, hname, if_pos rfl, hnone]
      rfl
    · rw [hids, h.held old hold, hname, hname', if_pos rfl]
  case home =>
    simp only [Circuit.growQubits, hnames]
    rcases List.mem_append.mp hq with hq | hq
    · have hold := h.home q hq
      split
      · exact hold
      · exact List.mem_append_left _ hold
    · obtain ⟨i, -, rfl⟩ := List.mem_map.mp hq
      split
      · assumption
      · exact List.mem_append_right _ (List.mem_singleton_self name)
  case qubits =>
    have happend := h.qubits.append name n
    simpa [Circuit.growQubits, List.countP_map, Function.comp_def] using happend

theorem growClbits (h : c.Filed) (name : String) (n : ℕ) : (c.growClbits name n).Filed := by
  refine ⟨h.qubit_ids, h.names_nodup, h.held, h.home, h.qubits, ?_⟩
  have happend := h.clbits.append name n
  simpa [Circuit.growClbits, List.countP_map, Function.comp_def] using happend

/-- The number of a qubit and its place in its register lie below the number of qubits. -/
theorem qubit_lt (h : c.Filed) {q : Qubit} (hq : q ∈ c.qubits) :
    q.id.index < c.numQubits ∧ q.index < c.numQubits := by
  have hid : q.id ∈ (List.range c.numQubits).map QubitId.mk := by
    rw [← h.qubit_ids]
    exact List.mem_map_of_mem hq
  obtain ⟨k, hk, hkq⟩ := List.mem_map.mp hid
  rw [← hkq]
  have hplace := h.qubits.lt_length (List.mem_map_of_mem hq)
  rw [List.length_map] at hplace
  exact ⟨List.mem_range.mp hk, hplace⟩

theorem clbit_lt (h : c.Filed) {b : Clbit} (hb : b ∈ c.clbits) : b.index < c.numClbits := by
  have hplace := h.clbits.lt_length (List.mem_map_of_mem hb)
  rwa [List.length_map] at hplace

/-- Only a qubit that names a register lies in it, at the place that its index tells. -/
theorem position_iff (h : c.Filed) {q : Qubit} (hq : q ∈ c.qubits) {r : QuantumRegister}
    (hr : r ∈ c.qregs) (k : ℕ) :
    r.qubits[k]? = some q.id ↔ q.register = r.name ∧ k = q.index := by
  have hids : (c.qubits.map (·.id)).Nodup := by
    rw [h.qubit_ids]
    exact List.nodup_range.map fun a b hab => congrArg QubitId.index hab
  have hindices : (c.qubits.filter (·.register == r.name)).map (·.index) =
      List.range (c.qubits.countP (·.register == r.name)) := by
    simpa [Numbered, List.filter_map, List.countP_map, Function.comp_def] using h.qubits r.name
  have hindex {k : ℕ} {q : Qubit} (hk : (c.qubits.filter (·.register == r.name))[k]? = some q) :
      k = q.index := by
    have hget := congrArg (·[k]?) hindices
    simp only [List.getElem?_map, hk, Option.map_some] at hget
    obtain ⟨hlt, hget⟩ := List.getElem?_eq_some_iff.mp hget.symm
    rwa [List.getElem_range] at hget
  rw [h.held r hr, List.getElem?_map, Option.map_eq_some_iff]
  constructor
  · rintro ⟨other, hk, hid⟩
    obtain ⟨hother, hname⟩ := List.mem_filter.mp (List.mem_of_getElem? hk)
    obtain rfl := List.inj_on_of_nodup_map hids hother hq hid
    exact ⟨beq_iff_eq.mp hname, hindex hk⟩
  · rintro ⟨hname, rfl⟩
    have hmem : q ∈ c.qubits.filter (·.register == r.name) :=
      List.mem_filter.mpr ⟨hq, beq_iff_eq.mpr hname⟩
    obtain ⟨k, hk⟩ := List.mem_iff_getElem?.mp hmem
    exact ⟨q, hindex hk ▸ hk, rfl⟩

end Filed

/-- Every builder step keeps the wires filed. -/
theorem Built.filed [Zero α] [Add α] {c : Circuit α} (h : c.Built) : c.Filed := by
  induction h with
  | new name =>
    exact ⟨rfl, List.nodup_nil, fun r hr => absurd hr List.not_mem_nil,
      fun q hq => absurd hq List.not_mem_nil, numbered_nil, numbered_nil⟩
  | @addQubits c _ n ih =>
    by_cases hn : n = 0
    · rw [Circuit.addQubits, if_pos hn]
      exact ih
    · rw [ih.addQubits_eq_growQubits hn]
      exact ih.growQubits defaultQubits n
  | @addQubitRegister c d name size ids _ hd ih =>
    rw [ih.addQubitRegister_eq_growQubits hd]
    exact ih.growQubits name size
  | @addClbits c _ n ih =>
    rw [addClbits_eq_growClbits]
    exact ih.growClbits defaultClbits n
  | @addClbitRegister c d name size ids _ hd ih =>
    rw [addClbitRegister_eq_growClbits hd]
    exact ih.growClbits name size
  | append _ hd ih =>
    obtain ⟨-, rfl⟩ := append_eq_ok_iff.mp hd
    exact ⟨ih.qubit_ids, ih.names_nodup, ih.held, ih.home, ih.qubits, ih.clbits⟩
  | addPhase _ x ih =>
    exact ⟨ih.qubit_ids, ih.names_nodup, ih.held, ih.home, ih.qubits, ih.clbits⟩
  | bind _ values ih =>
    exact ⟨ih.qubit_ids, ih.names_nodup, ih.held, ih.home, ih.qubits, ih.clbits⟩

end Circuit

end KetSim

import KetSim.Proofs.Engine.Observable
import KetSim.Proofs.Lowering.Linear
import KetSim.Proofs.Pauli

/-! # Operators on a register

A canonical string names a qubit once, and the qubits of a register have different
indices, so the engine takes every product that an operator is lowered to. What stops
the lowering is the first factor outside the register, and there is one exactly if the
largest qubit of the operator lies outside.
-/
namespace KetSim

variable {α : Type} {n : ℕ}

/-! ## Largest qubits -/

/-- The qubit, if there is one, lies in a register of `n` qubits. -/
def QubitId.Within (n : ℕ) (q? : Option QubitId) : Prop := ∀ q, q? = some q → q.index < n

open QubitId (Within)

theorem PauliString.Canonical.within_maxQubit? {p : PauliString} (h : p.Canonical) :
    Within n p.maxQubit? ↔ ∀ f ∈ p.ops, f.1.index < n := by
  constructor
  · rintro hmax ⟨q, a⟩ hf
    have hproper : p.factor q ≠ .i := h.factor_ne_iff.mpr ⟨a, hf⟩
    cases htop : p.maxQubit? with
    | none => exact absurd (h.maxQubit?_eq_none_iff.mp htop q) hproper
    | some top =>
      obtain ⟨-, hle⟩ := h.maxQubit?_eq_some_iff.mp htop
      exact (hle q hproper).trans_lt (hmax top htop)
  · intro hall q hq
    obtain ⟨hproper, -⟩ := h.maxQubit?_eq_some_iff.mp hq
    obtain ⟨a, hf⟩ := h.factor_ne_iff.mp hproper
    exact hall _ hf

namespace PauliOperator

/-- Every string of an operator is made from a list of factors. -/
def Canonical (op : PauliOperator α) : Prop :=
  ∀ term ∈ op.terms, ∃ ops, term.1 = PauliString.ofOps ops

/-- The factors of all strings in the order of the terms. -/
def factors (op : PauliOperator α) : List (QubitId × Pauli) := op.terms.flatMap (·.1.ops)

theorem Canonical.string {op : PauliOperator α} (h : op.Canonical) {term : PauliString × α}
    (hterm : term ∈ op.terms) : term.1.Canonical := by
  obtain ⟨ops, hops⟩ := h term hterm
  exact hops ▸ PauliString.canonical_ofOps ops

theorem within_maxOf {a b : Option QubitId} : Within n (maxOf a b) ↔ Within n a ∧ Within n b := by
  cases a with
  | none => simp [maxOf, Within]
  | some p =>
    cases b with
    | none => simp [maxOf, Within]
    | some q =>
      simp only [maxOf, Within, Option.some.injEq, forall_eq']
      split <;> omega

theorem Canonical.within_maxQubit? {op : PauliOperator α} (h : op.Canonical) :
    Within n op.maxQubit? ↔ ∀ f ∈ op.factors, f.1.index < n := by
  have hfold (terms : List (PauliString × α)) (hterms : ∀ term ∈ terms, term.1.Canonical)
      (start : Option QubitId) :
      Within n (terms.foldl (fun m term => maxOf m term.1.maxQubit?) start) ↔
        Within n start ∧ ∀ f ∈ terms.flatMap (·.1.ops), f.1.index < n := by
    induction terms generalizing start with
    | nil => simp
    | cons term rest ih =>
      obtain ⟨hterm, hrest⟩ := List.forall_mem_cons.mp hterms
      rw [List.foldl_cons, ih hrest, within_maxOf, hterm.within_maxQubit?, List.flatMap_cons,
        List.forall_mem_append, and_assoc]
  rw [maxQubit?, hfold op.terms fun term hterm => h.string hterm]
  exact and_iff_right fun q hq => by cases hq

end PauliOperator

/-! ## Factors on their indices -/

namespace QubitLayout

/-- The qubits numbered below `bound` have different indices in the register, and no other qubit
has an index. -/
structure Places (layout : QubitLayout) (bound : ℕ) (place : QubitId → ℕ) : Prop where
  index : ∀ q : QubitId, q.index < bound → layout.index q = .ok (place q)
  outside : ∀ q : QubitId, bound ≤ q.index →
    layout.index q = .error (.qubitOutOfRange q layout.numQubits)
  lt : ∀ q : QubitId, q.index < bound → place q < layout.numQubits
  injOn : ∀ p q : QubitId, p.index < bound → q.index < bound → place p = place q → p = q

theorem places_linear (numbering : Numbering) (n : ℕ) :
    (linear numbering n).Places (min n wireLimit)
      fun q => numbering.place n (q.lastPosition n) where
  index _ hq := index_linear numbering (lt_min_iff.mp hq).1 (lt_min_iff.mp hq).2
  outside _ hq := index_linear_of_le numbering hq
  lt _ hq := numbering.place_lt (QubitId.lastPosition_lt (lt_min_iff.mp hq).1)
  injOn p q hp hq h := by
    obtain ⟨hp, hpword⟩ := lt_min_iff.mp hp
    obtain ⟨hq, hqword⟩ := lt_min_iff.mp hq
    rw [← QubitId.ofPosition_lastPosition n hpword, ← QubitId.ofPosition_lastPosition n hqword]
    exact congrArg QubitId.ofPosition (numbering.place_inj (QubitId.lastPosition_lt hp)
      (QubitId.lastPosition_lt hq) h)

/-- A factor on the index of its qubit. -/
def FactorOn (place : QubitId → ℕ) (f : QubitId × Pauli) (g : ℕ × Engine.Axis) : Prop :=
  g.1 = place f.1 ∧ f.2.axis? = some g.2

/-- A term with its factors on the indices of their qubits. -/
def TermOn (place : QubitId → ℕ) (term : PauliString × α) (t : Engine.Term α) : Prop :=
  t.coeff = term.2 ∧ List.Forall₂ (FactorOn place) term.1.ops t.ops

theorem TermOn.congr {place place' : QubitId → ℕ} {term : PauliString × α} {t : Engine.Term α}
    (h : TermOn place term t) (hsame : ∀ f ∈ term.1.ops, place f.1 = place' f.1) :
    TermOn place' term t := by
  obtain ⟨hcoeff, hops⟩ := h
  have hboth := (List.forall₂_and_left _ _).mpr ⟨hsame, hops⟩
  exact ⟨hcoeff, hboth.imp fun f g ⟨hplace, hg, haxis⟩ => ⟨hg.trans hplace, haxis⟩⟩

/-- Terms stay on their indices when the places of their qubits are given in another way. -/
theorem forall₂_termOn_congr {place place' : QubitId → ℕ} {terms : List (PauliString × α)}
    {ts : List (Engine.Term α)} (h : List.Forall₂ (TermOn place) terms ts)
    (hsame : ∀ f ∈ terms.flatMap (·.1.ops), place f.1 = place' f.1) :
    List.Forall₂ (TermOn place') terms ts := by
  have hterms (term : PauliString × α) (hterm : term ∈ terms) (f : QubitId × Pauli)
      (hf : f ∈ term.1.ops) : place f.1 = place' f.1 :=
    hsame f (List.mem_flatMap.mpr ⟨term, hterm, hf⟩)
  have hboth := (List.forall₂_and_left _ _).mpr ⟨hterms, h⟩
  exact hboth.imp fun term t ⟨hplace, ht⟩ => ht.congr hplace

namespace Places

variable {layout : QubitLayout} {bound : ℕ} {place : QubitId → ℕ} (h : layout.Places bound place)

include h

theorem exists_factors {ops : List (QubitId × Pauli)} (hproper : ∀ f ∈ ops, f.2 ≠ .i)
    (hwithin : ∀ f ∈ ops, f.1.index < bound) :
    ∃ axes, layout.factors ops = .ok axes ∧ List.Forall₂ (FactorOn place) ops axes := by
  induction ops with
  | nil => exact ⟨[], rfl, .nil⟩
  | cons f rest ih =>
    obtain ⟨q, p⟩ := f
    obtain ⟨hp, hproper⟩ := List.forall_mem_cons.mp hproper
    obtain ⟨hq, hwithin⟩ := List.forall_mem_cons.mp hwithin
    obtain ⟨axes, haxes, hrest⟩ := ih hproper hwithin
    obtain ⟨axis, haxis⟩ : ∃ axis, p.axis? = some axis := by
      cases p with
      | i => exact absurd rfl hp
      | x | y | z => exact ⟨_, rfl⟩
    refine ⟨(place q, axis) :: axes, ?_, .cons ⟨rfl, haxis⟩ hrest⟩
    simp only [factors, haxis, h.index q hq, haxes]
    rfl

theorem factors_of_first {before after : List (QubitId × Pauli)} {q : QubitId} {p : Pauli}
    (hwithin : ∀ f ∈ before, f.1.index < bound) (hp : p ≠ .i)
    (hq : bound ≤ q.index) :
    layout.factors (before ++ (q, p) :: after) = .error (.qubitOutOfRange q layout.numQubits) := by
  induction before with
  | nil =>
    cases p with
    | i => exact absurd rfl hp
    | x | y | z =>
      simp only [List.nil_append, factors, Pauli.axis?, h.outside q hq]
      rfl
  | cons f rest ih =>
    obtain ⟨hf, hrest⟩ := List.forall_mem_cons.mp hwithin
    rw [List.cons_append, factors, ih hrest, h.index f.1 hf]
    cases f.2.axis? <;> rfl

/-- The different qubits of a string lie on different indices. -/
theorem placed_of_forall₂ {ops : List (QubitId × Pauli)} {axes : List (ℕ × Engine.Axis)}
    (hnodup : (ops.map (·.1)).Nodup) (hwithin : ∀ f ∈ ops, f.1.index < bound)
    (haxes : List.Forall₂ (FactorOn place) ops axes) : Engine.Placed layout.numQubits axes := by
  have hplaces : axes.map (·.1) = (ops.map (·.1)).map place := by
    rw [List.map_map]
    induction haxes with
    | nil => rfl
    | cons hf _ ih =>
      rw [List.map_cons, List.map_cons, hf.1, ih hnodup.of_cons fun f hf =>
        hwithin f (List.mem_cons_of_mem _ hf)]
      rfl
  have hmem {q : QubitId} (hq : q ∈ ops.map (·.1)) : q.index < bound := by
    obtain ⟨f, hf, rfl⟩ := List.mem_map.mp hq
    exact hwithin f hf
  constructor
  · intro g hg
    have hplace : g.1 ∈ (ops.map (·.1)).map place := hplaces ▸ List.mem_map_of_mem hg
    obtain ⟨q, hq, hqg⟩ := List.mem_map.mp hplace
    exact hqg ▸ h.lt q (hmem hq)
  · rw [hplaces]
    exact hnodup.map_on fun p hp q hq => h.injOn p q (hmem hp) (hmem hq)

/-! ## Terms of an operator -/

theorem exists_addTerm {o : Engine.Observable α} (hn : o.numQubits = layout.numQubits)
    {term : PauliString × α} (hterm : term.1.Canonical)
    (hwithin : ∀ f ∈ term.1.ops, f.1.index < bound) :
    ∃ t, layout.addTerm o term = .ok { o with terms := o.terms ++ [t] } ∧ TermOn place term t ∧
      Engine.Placed layout.numQubits t.ops := by
  obtain ⟨axes, haxes, hmoved⟩ := h.exists_factors hterm.proper hwithin
  have hplaced := h.placed_of_forall₂ hterm.nodup hwithin hmoved
  have hadd : o.add term.2 axes = .ok { o with terms := o.terms ++ [⟨term.2, axes⟩] } :=
    Engine.Observable.add_eq_ok.mpr ⟨hn ▸ hplaced, rfl⟩
  exact ⟨⟨term.2, axes⟩, bind_eq_ok.mpr ⟨axes, haxes, mapError_eq_ok.mpr hadd⟩, ⟨rfl, hmoved⟩,
    hplaced⟩

/-- Terms within the bound are added one for one. -/
theorem exists_observable {terms : List (PauliString × α)}
    (hterms : ∀ term ∈ terms, term.1.Canonical)
    (hwithin : ∀ f ∈ terms.flatMap (·.1.ops), f.1.index < bound)
    {o : Engine.Observable α} (hn : o.numQubits = layout.numQubits) :
    ∃ ts, terms.foldlM layout.addTerm o = .ok { o with terms := o.terms ++ ts } ∧
      List.Forall₂ (TermOn place) terms ts ∧ ∀ t ∈ ts, Engine.Placed layout.numQubits t.ops := by
  induction terms generalizing o with
  | nil => exact ⟨[], by rw [List.append_nil]; rfl, .nil, fun t ht => absurd ht List.not_mem_nil⟩
  | cons term rest ih =>
    obtain ⟨hterm, hterms⟩ := List.forall_mem_cons.mp hterms
    rw [List.flatMap_cons, List.forall_mem_append] at hwithin
    obtain ⟨t, hadd, hmoved, hplaced⟩ := h.exists_addTerm hn hterm hwithin.1
    obtain ⟨ts, hrest, hmoves, hplaces⟩ :=
      ih hterms hwithin.2 (o := { o with terms := o.terms ++ [t] }) hn
    refine ⟨t :: ts, ?_, .cons hmoved hmoves, List.forall_mem_cons.mpr ⟨hplaced, hplaces⟩⟩
    rw [List.foldlM_cons, hadd]
    exact hrest.trans (by rw [List.append_assoc, List.singleton_append])

/-- Terms are added up to the one with the first factor outside the bound. -/
theorem observable_of_first {terms : List (PauliString × α)}
    (hterms : ∀ term ∈ terms, term.1.Canonical) {before after : List (QubitId × Pauli)}
    {q : QubitId} {p : Pauli} (hsplit : terms.flatMap (·.1.ops) = before ++ (q, p) :: after)
    (hwithin : ∀ f ∈ before, f.1.index < bound) (hq : bound ≤ q.index)
    {o : Engine.Observable α} (hn : o.numQubits = layout.numQubits) :
    terms.foldlM layout.addTerm o = .error (.qubitOutOfRange q layout.numQubits) := by
  induction terms generalizing o before with
  | nil => cases before <;> cases hsplit
  | cons term rest ih =>
    obtain ⟨hterm, hrest⟩ := List.forall_mem_cons.mp hterms
    rw [List.flatMap_cons, List.append_eq_append_iff] at hsplit
    -- the factor lies behind the ones of this term, or among them
    rcases hsplit with ⟨others, rfl, hothers⟩ | ⟨own, hown, hsplit⟩
    · rw [List.forall_mem_append] at hwithin
      obtain ⟨t, hadd, -, -⟩ := h.exists_addTerm hn hterm hwithin.1
      rw [List.foldlM_cons, hadd]
      exact ih hrest hothers hwithin.2 hn
    · cases own with
      | nil =>
        rw [List.append_nil] at hown
        obtain ⟨t, hadd, -, -⟩ := h.exists_addTerm hn hterm (hown ▸ hwithin)
        rw [List.foldlM_cons, hadd]
        have hothers : rest.flatMap (·.1.ops) = [] ++ (q, p) :: after := hsplit.symm
        exact ih hrest hothers (fun f hf => absurd hf List.not_mem_nil) hn
      | cons f own =>
        obtain ⟨rfl, -⟩ := List.cons.inj hsplit
        have hp : p ≠ .i := hterm.proper (q, p) (hown ▸ List.mem_append_right _ List.mem_cons_self)
        rw [List.foldlM_cons, addTerm, hown, h.factors_of_first hwithin hp hq]
        rfl

/-- An operator of canonical strings is lowered unless it has a factor outside the bound. -/
theorem observable_cases {op : PauliOperator α} (hop : op.Canonical) :
    (∃ o, (∀ f ∈ op.factors, f.1.index < bound) ∧ layout.observable op = .ok o ∧
      o.numQubits = layout.numQubits ∧ List.Forall₂ (TermOn place) op.terms o.terms ∧
      ∀ t ∈ o.terms, Engine.Placed layout.numQubits t.ops) ∨
    ∃ before q p after, op.factors = before ++ (q, p) :: after ∧
      (∀ f ∈ before, f.1.index < bound) ∧ bound ≤ q.index ∧
      layout.observable op = .error (.qubitOutOfRange q layout.numQubits) := by
  have hterms (term : PauliString × α) (hterm : term ∈ op.terms) := hop.string hterm
  rcases forall_or_first (fun f => f.1.index < bound) op.factors with
    hwithin | ⟨before, f, after, hsplit, hwithin, hq⟩
  · obtain ⟨ts, hts, hmoves, hplaced⟩ :=
      h.exists_observable hterms hwithin (o := .empty layout.numQubits) rfl
    exact .inl ⟨_, hwithin, hts, rfl, hmoves, hplaced⟩
  · exact .inr ⟨before, f.1, f.2, after, hsplit, hwithin, not_lt.mp hq,
      h.observable_of_first hterms hsplit hwithin (not_lt.mp hq) rfl⟩

end Places

end QubitLayout

/-! ## Operators for a number of qubits -/

open QubitLayout (TermOn)

/-- The numbers of all qubits are words. -/
def PauliOperator.Words (op : PauliOperator α) : Prop := ∀ f ∈ op.factors, f.1.index < wireLimit

/-- An operator whose strings are made from lists of factors is lowered for `n` qubits exactly if
its largest qubit, if there is one, lies below `n`. Otherwise the error is about the first factor
outside the register, in the order of the terms. The observable has `n` qubits and one term for each
term of the operator, with the same coefficient and the same factors, the one of qubit `q` on the
index of the last position that comes to `q`. For no more than `2 ^ 32` qubits this is index `q` or
`n - 1 - q`. The indices of a term lie below `n` and differ. -/
theorem PauliOperator.observable_on_register {op : PauliOperator α} (h : op.Canonical)
    (hwords : op.Words) (numbering : Numbering) (n : ℕ) :
    ((∃ o, op.observable numbering n = .ok o) ↔ ∀ q, op.maxQubit? = some q → q.index < n) ∧
    (∀ e, op.observable numbering n = .error e ↔
      ∃ before q p after, op.factors = before ++ (q, p) :: after ∧
        (∀ f ∈ before, f.1.index < n) ∧ n ≤ q.index ∧ e = .qubitOutOfRange q n) ∧
    ∀ o, op.observable numbering n = .ok o →
      o.numQubits = n ∧
      List.Forall₂ (TermOn fun q => numbering.place n (q.lastPosition n)) op.terms o.terms ∧
      (n ≤ wireLimit →
        List.Forall₂ (TermOn fun q => if numbering.mirrored then n - 1 - q.index else q.index)
          op.terms o.terms) ∧
      ∀ t ∈ o.terms, (∀ g ∈ t.ops, g.1 < n) ∧ (t.ops.map (·.1)).Nodup := by
  have hmax : (∀ q, op.maxQubit? = some q → q.index < n) ↔ ∀ f ∈ op.factors, f.1.index < n :=
    h.within_maxQubit?
  have hbound {f : QubitId × Pauli} (hf : f ∈ op.factors) :
      f.1.index < min n wireLimit ↔ f.1.index < n :=
    lt_min_iff.trans (and_iff_left (hwords f hf))
  have hlayout := QubitLayout.places_linear numbering n
  rw [hmax]
  obtain ⟨o, hwithin, ho, hn, hmoves, hplaced⟩ | ⟨before, q, p, after, hsplit, hbefore, hq, he⟩ :=
    hlayout.observable_cases h
  · have ho : op.observable numbering n = .ok o := ho
    have hwithin (f : QubitId × Pauli) (hf : f ∈ op.factors) : f.1.index < n :=
      (hbound hf).mp (hwithin f hf)
    refine ⟨iff_of_true ⟨o, ho⟩ hwithin, fun e => ?_, fun o' ho' => ?_⟩
    · refine iff_of_false (fun he => by cases ho.symm.trans he) ?_
      rintro ⟨before, q, p, after, hsplit, -, hq, -⟩
      have hmem : (q, p) ∈ op.factors := hsplit ▸ List.mem_append_right _ List.mem_cons_self
      exact absurd (hwithin _ hmem) (not_lt.mpr hq)
    · obtain rfl := Except.ok.inj (ho.symm.trans ho')
      refine ⟨hn, hmoves, fun hle => ?_, fun t ht => ⟨(hplaced t ht).lt, (hplaced t ht).nodup⟩⟩
      refine QubitLayout.forall₂_termOn_congr hmoves fun f hf => ?_
      rw [QubitId.lastPosition_of_le hle (hwithin f hf), Numbering.place]
  · have he : op.observable numbering n = .error (.qubitOutOfRange q n) := he
    have hmem : (q, p) ∈ op.factors := hsplit ▸ List.mem_append_right _ List.mem_cons_self
    have hq : n ≤ q.index := not_lt.mp fun hlt => absurd ((hbound hmem).mpr hlt) (not_lt.mpr hq)
    refine ⟨iff_of_false ?_ ?_, fun e => ⟨fun he' => ?_, ?_⟩, fun o ho => by cases he.symm.trans ho⟩
    · rintro ⟨o, ho⟩
      cases he.symm.trans ho
    · exact fun hall => absurd (hall _ hmem) (not_lt.mpr hq)
    · exact ⟨before, q, p, after, hsplit, fun f hf => (lt_min_iff.mp (hbefore f hf)).1, hq,
        Except.error.inj (he'.symm.trans he)⟩
    · rintro ⟨before', q', p', after', hsplit', hbefore', hq', rfl⟩
      refine hlayout.observable_of_first (fun term hterm => h.string hterm) hsplit' (fun f hf => ?_)
        ((min_le_left _ _).trans hq') rfl
      exact (hbound (hsplit' ▸ List.mem_append_left _ hf)).mpr (hbefore' f hf)

/-- Two terms on the qubits 0 and 2 are lowered for three qubits. For two qubits the factor on
qubit 2 is refused. -/
theorem PauliOperator.observable_on_register_two_terms :
    let op : PauliOperator ℤ :=
      ⟨[(.ofOps [(⟨2⟩, .z), (⟨0⟩, .x), (⟨1⟩, .i)], 3), (.ofOps [], 5)]⟩
    op.Canonical ∧ op.Words ∧
    (∃ o, op.observable ⟨true⟩ 3 = .ok o ∧ o.numQubits = 3 ∧
      List.Forall₂ (TermOn fun q => 2 - q.index) op.terms o.terms) ∧
    op.observable ⟨false⟩ 2 = .error (.qubitOutOfRange ⟨2⟩ 2) := by
  intro op
  have hop : op.Canonical := by
    intro term hterm
    obtain rfl | rfl : term = _ ∨ term = _ := by simpa [op] using hterm
    exacts [⟨_, rfl⟩, ⟨_, rfl⟩]
  have hmax : op.maxQubit? = some ⟨2⟩ := by cbv
  have hfactors : op.factors = [(⟨0⟩, .x)] ++ [(⟨2⟩, .z)] := by cbv
  have hwords : op.Words := by
    rw [PauliOperator.Words, hfactors]
    decide
  obtain ⟨hok, -, hmoved⟩ := PauliOperator.observable_on_register hop hwords ⟨true⟩ 3
  obtain ⟨-, hfirst, -⟩ := PauliOperator.observable_on_register hop hwords ⟨false⟩ 2
  obtain ⟨o, ho⟩ := hok.mpr fun q hq => by
    obtain rfl := Option.some.inj (hmax.symm.trans hq)
    decide
  obtain ⟨hn, -, hterms, -⟩ := hmoved o ho
  refine ⟨hop, hwords, ⟨o, ho, hn, hterms (by decide)⟩, ?_⟩
  exact (hfirst _).mpr ⟨_, _, _, _, hfactors, by simp, le_rfl, rfl⟩

/-- On one qubit more than there are words the numbers come around to zero: the factor on qubit
zero, which lies below the number of qubits, is moved to the last index instead of index zero, and
with mirrored positions to index zero instead of the last. -/
theorem PauliOperator.observable_comes_around :
    let op : PauliOperator ℤ := ⟨[(.ofOps [(⟨0⟩, .z)], 1)]⟩
    let n := wireLimit + 1
    op.Canonical ∧ op.maxQubit? = some ⟨0⟩ ∧
    (∃ o, op.observable ⟨false⟩ n = .ok o ∧ o.terms = [⟨1, [(wireLimit, .z)]⟩] ∧
      ¬ List.Forall₂ (TermOn fun q => q.index) op.terms o.terms) ∧
    ∃ o, op.observable ⟨true⟩ n = .ok o ∧ o.terms = [⟨1, [(0, .z)]⟩] ∧
      ¬ List.Forall₂ (TermOn fun q => n - 1 - q.index) op.terms o.terms := by
  intro op n
  have hstring : PauliString.ofOps [(⟨0⟩, .z)] = ⟨[(⟨0⟩, .z)]⟩ := by cbv
  have hop : op = ⟨[(⟨[(⟨0⟩, .z)]⟩, 1)]⟩ := by rw [← hstring]
  have hlast : QubitId.lastPosition n ⟨0⟩ = wireLimit := by decide
  have hobservable (numbering : Numbering) {i : ℕ} (hi : numbering.place n wireLimit = i) :
      op.observable numbering n = .ok ⟨n, [⟨1, [(i, .z)]⟩]⟩ := by
    have hindex := QubitLayout.index_linear numbering (n := n) (q := ⟨0⟩) (by decide) (by decide)
    rw [hlast] at hindex
    rw [PauliOperator.observable, hop,
      QubitLayout.observable_single hindex (numbering.place_lt (by decide)), ← hi]
    rfl
  have hmoved {place : QubitId → ℕ} {i : ℕ} (hi : i ≠ place ⟨0⟩) :
      ¬ List.Forall₂ (TermOn place) op.terms [⟨1, [(i, .z)]⟩] := by
    rw [hop]
    rintro (_ | ⟨⟨-, _ | ⟨hfactor, -⟩⟩, -⟩)
    exact hi hfactor.1
  refine ⟨fun term hterm => ?_, by rw [hop]; rfl,
    ⟨_, hobservable ⟨false⟩ (i := wireLimit) (by decide), rfl, hmoved (by decide)⟩,
    ⟨_, hobservable ⟨true⟩ (i := 0) (by decide), rfl, hmoved (by decide)⟩⟩
  obtain rfl := List.mem_singleton.mp hterm
  exact ⟨_, rfl⟩

end KetSim

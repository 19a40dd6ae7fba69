import KetSim.Proofs.Backend.Final
import KetSim.Proofs.Engine.InPlace

/-! # Single precision

A state with the narrower format is rounded behind each gate, and a factor is not.
The components have the format from the allocation on, up to a factor that no applied
gate follows. A run multiplies by the phase of its circuit at the very end, so the
format of what it returns depends on these last products. Density matrices have no
phase, and keep the format.
-/
namespace KetSim

/-- Rounding to the narrower format keeps zero, one and all that it has rounded. -/
structure Scalar.Narrows (α : Type) [Scalar α] : Prop where
  zero : Scalar.toSingle (0 : α) = 0
  one : Scalar.toSingle (1 : α) = 1
  idem : ∀ x : α, Scalar.toSingle (Scalar.toSingle x) = Scalar.toSingle x

open Scalar (Narrows)

variable {α : Type} [Scalar α]

/-! ## Components -/

namespace Cplx

/-- Both components have the narrower format. -/
def Single (a : Cplx α) : Prop := a.toSingle = a

theorem single_toSingle (h : Narrows α) (a : Cplx α) : a.toSingle.Single := by
  simp only [Single, toSingle, h.idem]

theorem single_zero (h : Narrows α) : (0 : Cplx α).Single :=
  congrArg₂ Cplx.mk h.zero h.zero

theorem single_one (h : Narrows α) : (1 : Cplx α).Single :=
  congrArg₂ Cplx.mk h.one h.zero

end Cplx

namespace Engine

theorem mem_allocate {n bits : ℕ} {buffer : Array (Cplx α)} (h : allocate n bits = .ok buffer)
    {a : Cplx α} (ha : a ∈ buffer) : a = 0 ∨ a = 1 := by
  unfold allocate at h
  split at h
  · cases h
  · split at h
    · cases h
    · obtain rfl := Except.ok.inj h
      rcases Array.mem_or_eq_of_mem_setIfInBounds ha with hmem | rfl
      · exact .inl (Array.eq_of_mem_replicate hmem)
      · exact .inr rfl

theorem single_of_mem_keep (h : Narrows α) {buffer : Array (Cplx α)} {a : Cplx α}
    (ha : a ∈ keep .single buffer) : a.Single := by
  obtain ⟨a, -, rfl⟩ := Array.mem_map.mp ha
  exact Cplx.single_toSingle h a

namespace State

/-- All components have the narrower format. -/
def Single (s : State α) : Prop := ∀ a ∈ s.entries, a.Single

/-! ## Calls -/

/-- A gate to apply, or a factor for all amplitudes. -/
inductive Call (α : Type) where
  | gate (g : Gate α)
  | factor (z : Cplx α)

/-- A gate that does not fit changes nothing, and density matrices take no factor. -/
def call (s : State α) : Call α → State α
  | .gate g =>
    match s.applyGate g with
    | .ok s' => s'
    | .error _ => s
  | .factor z =>
    match s with
    | vector v => vector (v.multiply z)
    | density d => density d

def after (s : State α) (calls : List (Call α)) : State α := calls.foldl call s

/-- Behind each factor for the amplitudes a gate is applied. -/
def Settles : State α → List (Call α) → Prop
  | vector v, calls => ∀ before z rest, calls = before ++ .factor z :: rest →
      ∃ g, .gate g ∈ rest ∧ g.Fits v.numQubits
  | density _, _ => True

variable {s s' : State α} {g : Gate α}

/-- A gate ends with the rounding to the format of the state. -/
theorem exists_entries_eq_keep (hg : s.applyGate g = .ok s') :
    ∃ buffer, s'.entries = keep s.options.precision buffer := by
  cases s with
  | vector v =>
    obtain ⟨t, ht, rfl⟩ := map_eq_ok.mp hg
    obtain ⟨-, -, ht⟩ := bind_eq_ok.mp ht
    obtain rfl := Except.ok.inj ht
    exact ⟨_, rfl⟩
  | density d =>
    obtain ⟨t, ht, rfl⟩ := map_eq_ok.mp hg
    obtain ⟨-, -, ht⟩ := bind_eq_ok.mp ht
    obtain rfl := Except.ok.inj ht
    exact ⟨_, rfl⟩

theorem single_applyGate (h : Narrows α) (hs : s.options.precision = .single)
    (hg : s.applyGate g = .ok s') : s'.Single := by
  obtain ⟨buffer, hbuffer⟩ := exists_entries_eq_keep hg
  intro a ha
  rw [hbuffer, hs] at ha
  exact single_of_mem_keep h ha

theorem call_gate_of_fits (hg : g.Fits s.numQubits) : s.applyGate g = .ok (s.call (.gate g)) := by
  obtain ⟨s', hs'⟩ := exists_applyGate hg
  simp only [call, hs']

theorem call_gate_of_not_fits (hg : ¬ g.Fits s.numQubits) : s.call (.gate g) = s := by
  cases hs : s.applyGate g with
  | error e => simp only [call, hs]
  | ok s' =>
    obtain ⟨e, he⟩ := Gate.invalid_iff_exists_fault.mp (Gate.invalid_iff.mpr hg)
    cases hs.symm.trans (applyGate_eq_error_iff.mpr he)

theorem kept_call (s : State α) (c : Call α) : s.Kept (s.call c) := by
  cases c with
  | gate g =>
    cases hs : s.applyGate g with
    | ok s' => simpa only [call, hs] using Kept.applyGate hs
    | error e => simpa only [call, hs] using Kept.refl s
  | factor z =>
    cases s with
    | vector v => exact ⟨by simp [call, entries, StateVector.multiply_eq], rfl, rfl⟩
    | density d => exact .refl _

theorem kept_after (s : State α) (calls : List (Call α)) : s.Kept (s.after calls) := by
  induction calls generalizing s with
  | nil => exact .refl s
  | cons c rest ih => exact (kept_call s c).trans (ih _)

theorem after_concat (calls : List (Call α)) (c : Call α) :
    s.after (calls ++ [c]) = (s.after calls).call c := List.foldl_concat call s c calls

/-- A factor keeps the format exactly if it keeps that of each amplitude. -/
theorem single_multiply_iff {v : StateVector α} {z : Cplx α} :
    ((vector v).call (.factor z)).Single ↔ ∀ a ∈ v.amplitudes, (a * z).Single := by
  simp [Single, call, entries, StateVector.multiply_eq]

omit [Scalar α] in
theorem Settles.of_concat {calls : List (Call α)} (hg : ¬ g.Fits s.numQubits)
    (h : s.Settles (calls ++ [.gate g])) : s.Settles calls := by
  cases s with
  | density d => trivial
  | vector v =>
    -- the gate behind a factor is another one, since this one does not fit
    rintro before z rest rfl
    obtain ⟨g', hmem, hfits⟩ := h before z (rest ++ [.gate g]) (by simp)
    rcases List.mem_append.mp hmem with hmem | hlast
    · exact ⟨g', hmem, hfits⟩
    · obtain rfl := Call.gate.inj (List.mem_singleton.mp hlast)
      exact absurd hfits hg

/-- Calls keep the representation. -/
theorem exists_density_after_iff (s : State α) (calls : List (Call α)) :
    (∃ d, s.after calls = density d) ↔ ∃ d, s = density d := by
  induction calls generalizing s with
  | nil => rfl
  | cons c rest ih =>
    refine (ih (s.call c)).trans ?_
    cases s with
    | vector v =>
      cases c with
      | factor z => simp [call]
      | gate g => cases hv : v.applyGate g <;> simp [call, applyGate, hv, Except.map]
    | density d =>
      cases c with
      | factor z => simp [call]
      | gate g => cases hd : d.applyGate g <;> simp [call, applyGate, hd, Except.map]

omit [Scalar α] in
theorem settles_gates (s : State α) (gates : List (Gate α)) : s.Settles (gates.map .gate) := by
  cases s with
  | density d => trivial
  | vector v =>
    intro before z rest heq
    have hmem : Call.factor z ∈ gates.map .gate := heq ▸ List.mem_append_right _ List.mem_cons_self
    obtain ⟨g, -, hg⟩ := List.mem_map.mp hmem
    cases hg

theorem single_after (h : Narrows α) (hs : s.Single) (hprecision : s.options.precision = .single)
    {calls : List (Call α)} (hcalls : s.Settles calls) : (s.after calls).Single := by
  induction calls using List.reverseRecOn with
  | nil => exact hs
  | append_singleton calls c ih =>
    have hkept := kept_after s calls
    rw [after_concat]
    cases c with
    | gate g =>
      by_cases hg : g.Fits s.numQubits
      · exact single_applyGate h (hkept.options ▸ hprecision)
          (call_gate_of_fits (hkept.numQubits ▸ hg))
      · rw [call_gate_of_not_fits (hkept.numQubits ▸ hg)]
        exact ih (hcalls.of_concat hg)
    | factor z =>
      cases s with
      | vector v =>
        obtain ⟨g, hmem, -⟩ := hcalls calls z [] rfl
        cases hmem
      | density d =>
        obtain ⟨d', hd'⟩ := (exists_density_after_iff _ calls).mpr ⟨d, rfl⟩
        have hsingle := ih trivial
        rw [hd'] at hsingle ⊢
        exact hsingle

end State

/-- A run that comes to its end makes one call for each gate. -/
theorem Program.eq_after_of_run {p : Program α} {s s' : State α} (h : p.run s = (s', none)) :
    s' = s.after (p.gates.map .gate) := by
  have hgates (gates : List (Gate α)) (s : State α) (h : applyGates gates s = (s', none)) :
      s' = s.after (gates.map .gate) := by
    induction gates generalizing s with
    | nil => exact (Prod.mk.inj h).1.symm
    | cons g rest ih =>
      cases hg : s.applyGate g with
      | error e =>
        rw [applyGates, hg] at h
        cases h
      | ok t =>
        rw [applyGates, hg] at h
        rw [List.map_cons, State.after, List.foldl_cons, State.call, hg]
        exact ih t h
  unfold run at h
  split at h
  · cases h
  · exact hgates p.gates s h

end Engine

/-! ## Runs -/

/-- The components of amplitudes and of elements have the narrower format. -/
def ResultData.Single : ResultData α → Prop
  | .stateVector xs | .densityMatrix xs => ∀ x ∈ xs, x.Single
  | .shots _ | .expectation _ => True

namespace Execution

theorem entries_of_allocate {s : Settings} {n : ℕ} {start : Engine.State α}
    (hstart : allocate s n = .ok start) :
    start.options = s.engineOptions ∧ ∃ bits, Engine.allocate n bits = .ok start.entries := by
  cases hr : s.representation with
  | stateVector =>
    obtain ⟨v, hv, rfl⟩ := (allocate_vector hr).mp hstart
    obtain ⟨entries, hentries, hv⟩ := bind_eq_ok.mp hv
    obtain rfl := Except.ok.inj hv
    exact ⟨rfl, n, hentries⟩
  | densityMatrix =>
    obtain ⟨d, hd, rfl⟩ := (allocate_density hr).mp hstart
    obtain ⟨entries, hentries, hd⟩ := bind_eq_ok.mp hd
    obtain rfl := Except.ok.inj hd
    exact ⟨rfl, 2 * n, hentries⟩

theorem exists_density_iff {s : Settings} {n : ℕ} {start : Engine.State α}
    (hstart : allocate s n = .ok start) :
    (∃ d, start = .density d) ↔ s.representation = .densityMatrix := by
  cases hr : s.representation with
  | stateVector =>
    obtain ⟨v, -, rfl⟩ := (allocate_vector hr).mp hstart
    simp
  | densityMatrix =>
    obtain ⟨d, -, rfl⟩ := (allocate_density hr).mp hstart
    simp

theorem single_of_allocate (h : Narrows α) {s : Settings} {n : ℕ} {start : Engine.State α}
    (hstart : allocate s n = .ok start) : start.Single := by
  intro a ha
  obtain ⟨-, bits, hentries⟩ := entries_of_allocate hstart
  rcases Engine.mem_allocate hentries ha with rfl | rfl
  · exact Cplx.single_zero h
  · exact Cplx.single_one h

/-- The data of a state has the format of its components: what lies outside the buffer reads as
zero. -/
theorem single_stateData (h : Narrows α) {state : Engine.State α} (hs : state.Single) :
    (stateData state).Single := by
  cases state with
  | vector v => exact fun x hx => hs x (Array.mem_toList_iff.mp hx)
  | density d =>
    intro x hx
    obtain ⟨k, -, rfl⟩ := List.mem_map.mp hx
    rw [Engine.DensityMatrix.get, Array.getD_eq_getD_getElem?]
    cases hget : d.elements[d.place (k / d.dim) (k % d.dim)]? with
    | none => exact Cplx.single_zero h
    | some a => exact hs a (Array.mem_of_getElem? hget)

theorem single_turn_iff (h : Narrows α) {state : Engine.State α} (hs : state.Single) (phase : α) :
    (stateData (turn phase state)).Single ↔
      (∃ d, state = .density d) ∨ Scalar.isZero phase = true ∨
        ∀ a ∈ state.entries, (a * Cplx.cis (Scalar.halfTurn phase)).Single := by
  cases state with
  | density d => exact iff_of_true (single_stateData h hs) (.inl ⟨d, rfl⟩)
  | vector v =>
    cases hz : Scalar.isZero phase with
    | true =>
      simp only [turn, hz, ↓reduceIte]
      exact iff_of_true (single_stateData h hs) (.inr (.inl trivial))
    | false =>
      simp [turn, hz, stateData, ResultData.Single, Engine.StateVector.multiply_eq,
        Engine.State.entries]

end Execution

/-! ## Binary places -/

/-- Exact arithmetic in which the narrower format has the multiples of `2 ^ (-24)`. -/
@[reducible] noncomputable def Scalar.grid : Scalar ℝ :=
  { (inferInstance : Scalar ℝ) with
    toSingle := fun x => round (x * (2 ^ 24 : ℕ)) / (2 ^ 24 : ℕ) }

theorem Scalar.narrows_grid : @Scalar.Narrows ℝ Scalar.grid :=
  letI := Scalar.grid
  { zero := by
      change (round ((0 : ℝ) * (2 ^ 24 : ℕ)) / (2 ^ 24 : ℕ) : ℝ) = 0
      simp
    one := by
      change (round ((1 : ℝ) * (2 ^ 24 : ℕ)) / (2 ^ 24 : ℕ) : ℝ) = 1
      rw [one_mul, round_natCast]
      norm_num
    idem := fun x => by
      change (round ((round (x * (2 ^ 24 : ℕ)) : ℝ) / (2 ^ 24 : ℕ) * (2 ^ 24 : ℕ)) /
        (2 ^ 24 : ℕ) : ℝ) = round (x * (2 ^ 24 : ℕ)) / (2 ^ 24 : ℕ)
      rw [div_mul_cancel₀ _ (by norm_num), round_intCast] }

theorem Scalar.grid_toSingle_ne {x : ℝ} (h : Irrational x) : Scalar.grid.toSingle x ≠ x := by
  intro hx
  refine h ⟨round (x * (2 ^ 24 : ℕ)) / (2 ^ 24 : ℕ), ?_⟩
  rw [Rat.cast_div, Rat.cast_intCast, Rat.cast_natCast]
  exact hx

namespace Backend

/-- In single precision, for every rounding that keeps zero, one and all that it has rounded: an
allocated state has only rounded components after all calls in which a gate is applied behind each
factor, and a factor keeps them rounded exactly if its products are. In the answer to a request for
the state, all components are rounded exactly if there is no phase, or the products by it are
rounded; for density matrices they always are. -/
theorem single_precision_kept_iff (h : Narrows α) :
    (∀ (s : Settings) (n : ℕ) (start : Engine.State α), s.precision = .single →
      Execution.allocate s n = .ok start → ∀ calls, start.Settles calls →
        (start.after calls).Single) ∧
    (∀ (v : Engine.StateVector α) (z : Cplx α),
      ((Engine.State.vector v).call (.factor z)).Single ↔ ∀ a ∈ v.amplitudes, (a * z).Single) ∧
    ∀ (b : Backend α) (o : Occasion) (p : Prepared α) (r : ExecutionResult α),
      b.settings.precision = .single → b.run o p .state = .ok r →
      ∃ k start state, b.accept p = .ok k ∧
        Execution.allocate b.settings k.program.numQubits = .ok start ∧
        k.program.run start = (state, none) ∧ state.Single ∧
        (r.data.Single ↔ b.settings.representation = .densityMatrix ∨
          Scalar.isZero p.source.phase = true ∨
          ∀ a ∈ state.entries, (a * Cplx.cis (Scalar.halfTurn p.source.phase)).Single) := by
  have hkept (s : Settings) (n : ℕ) (start : Engine.State α) (hs : s.precision = .single)
      (hstart : Execution.allocate s n = .ok start) (calls : List (Engine.State.Call α))
      (hcalls : start.Settles calls) : (start.after calls).Single := by
    obtain ⟨hoptions, -⟩ := Execution.entries_of_allocate hstart
    exact Engine.State.single_after h (Execution.single_of_allocate h hstart)
      (by rw [hoptions]; exact hs) hcalls
  refine ⟨hkept, fun v z => Engine.State.single_multiply_iff, fun b o p r hs hr => ?_⟩
  obtain ⟨k, hk, hr⟩ := bind_eq_ok.mp hr
  obtain ⟨-, -, hr⟩ := bind_eq_ok.mp hr
  obtain ⟨⟨data, seed⟩, hexecute, hr⟩ := bind_eq_ok.mp hr
  obtain rfl := Except.ok.inj hr
  obtain ⟨final, hfinal, hdata⟩ := bind_eq_ok.mp hexecute
  obtain ⟨rfl, -⟩ := Prod.mk.inj (Except.ok.inj hdata)
  obtain ⟨start, state, hstart, hrun, rfl⟩ := Execution.finalState_eq_ok.mp hfinal
  have hafter := Engine.Program.eq_after_of_run hrun
  have hsingle : state.Single := hafter ▸ hkept _ _ _ hs hstart _ (start.settles_gates _)
  refine ⟨k, start, state, hk, hstart, hrun, hsingle, ?_⟩
  rw [Execution.single_turn_iff h hsingle, hafter, Engine.State.exists_density_after_iff,
    Execution.exists_density_iff hstart]

/-- A qubit that takes a factor and then a gate, and one that is returned as it was allocated. -/
theorem single_precision_kept_iff_one_qubit :
    let _ : Scalar ℝ := Scalar.grid
    let _ : DecimalText ℝ := DecimalText.whole
    let s : Settings := { precision := .single }
    let b : Backend ℝ := build "qulacs" s
    let o : Occasion := ⟨0, 0, 0, ⟨"job"⟩, ⟨2024, 1, 1, 0, 0, 0, 0⟩⟩
    Narrows ℝ ∧
    (∃ start : Engine.State ℝ, Execution.allocate s 1 = .ok start ∧
      (start.after [.factor (Cplx.cis 1), .gate (.h 0)]).Single) ∧
    ∃ p r, (b.prepare 0 (Circuit.withSize "one" 1 0)).2 = .ok p ∧
      b.run o p .state = .ok r ∧ r.data.Single := by
  intro _ _ s b o
  obtain ⟨p, r, hp, hr, hphase⟩ : ∃ p r, (b.prepare 0 (Circuit.withSize "one" 1 0)).2 = .ok p ∧
      b.run o p .state = .ok r ∧ p.source.phase = 0 := ⟨_, _, rfl, rfl, rfl⟩
  have hstart : Execution.allocate (α := ℝ) s 1 = .ok _ := rfl
  have hfits : (Engine.Gate.h 0 : Engine.Gate ℝ).Fits 1 := Engine.Gate.check_eq_ok.mp rfl
  obtain ⟨hcalls, -, hruns⟩ := single_precision_kept_iff Scalar.narrows_grid
  refine ⟨Scalar.narrows_grid, ⟨_, hstart, hcalls s 1 _ rfl hstart _ ?_⟩, p, r, hp, hr, ?_⟩
  · rintro (_ | ⟨call, before⟩) z rest heq
    · obtain ⟨-, rfl⟩ := List.cons.inj heq
      exact ⟨_, List.mem_singleton_self _, hfits⟩
    · obtain ⟨-, heq⟩ := List.cons.inj heq
      rcases List.singleton_eq_append_iff.mp heq with ⟨-, hrest⟩ | ⟨-, hrest⟩
      · cases hrest
      · cases hrest
  · obtain ⟨_, _, _, -, -, -, -, hiff⟩ := hruns b o p r rfl hr
    exact hiff.mpr (.inr (.inl (decide_eq_true hphase)))

/-- The amplitude of a qubit without gates after a quarter of a half turn is the square root of one
half, which has no end of binary places. -/
theorem single_precision_lost_quarter :
    let _ : Scalar ℝ := Scalar.grid
    let _ : DecimalText ℝ := DecimalText.whole
    let b : Backend ℝ := build "qulacs" { precision := .single }
    let o : Occasion := ⟨0, 0, 0, ⟨"job"⟩, ⟨2024, 1, 1, 0, 0, 0, 0⟩⟩
    let c : Circuit ℝ := { Circuit.withSize "one" 1 0 with phase := 1 / 4 }
    Narrows ℝ ∧ ∃ p r, (b.prepare 0 c).2 = .ok p ∧ b.run o p .state = .ok r ∧
      ¬ r.data.Single := by
  intro _ _ b o c
  have hp : (b.prepare 0 c).2 = .ok _ := rfl
  refine ⟨Scalar.narrows_grid, _, _, hp, rfl, fun h => ?_⟩
  have hstart : Execution.allocate (α := ℝ) b.settings 1 = .ok _ := rfl
  have hphase : ¬ Scalar.isZero (1 / 4 : ℝ) = true := by
    change ¬ decide ((1 / 4 : ℝ) = 0) = true
    norm_num
  have hturned := (Execution.single_turn_iff Scalar.narrows_grid
    (Execution.single_of_allocate Scalar.narrows_grid hstart) (1 / 4)).mp h
  rcases hturned with ⟨d, hd⟩ | hz | hproducts
  · cases hd
  · exact hphase hz
  · have hvalue : (1 * Cplx.cis (Scalar.halfTurn (1 / 4 : ℝ))).re = √2 / 2 := by
      change (1 : ℝ) * (1 * Real.cos (1 / 4 * Real.pi)) - 0 * (1 * Real.sin (1 / 4 * Real.pi)) =
        √2 / 2
      rw [one_mul, one_mul, zero_mul, sub_zero, one_div_mul_eq_div, Real.cos_pi_div_four]
    have hone : (1 : Cplx ℝ) ∈ (Array.replicate (2 ^ 1) 0).setIfInBounds 0 1 :=
      Array.mem_of_getElem? (i := 0) rfl
    have hirrational : Irrational (√2 / 2) := irrational_sqrt_two.div_natCast two_ne_zero
    exact Scalar.grid_toSingle_ne hirrational (hvalue ▸ congrArg Cplx.re (hproducts 1 hone))

end Backend

end KetSim

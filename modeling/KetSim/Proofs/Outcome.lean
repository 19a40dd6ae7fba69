import Mathlib

/-! # Outcomes

When a computation that may fail succeeds, and which failure is the first.
-/
namespace KetSim

variable {ε ε' β γ : Type}

/-- What an operation in place leaves behind, whether it fails or not. -/
def leaves {σ : Type} : EStateM.Result ε σ Unit → σ
  | .ok _ s => s
  | .error _ s => s

theorem map_eq_ok {r : Except ε β} {f : β → γ} {c : γ} :
    r.map f = .ok c ↔ ∃ b, r = .ok b ∧ f b = c := by
  cases r <;> simp [Except.map]

theorem map_eq_error {r : Except ε β} {f : β → γ} {e : ε} :
    r.map f = .error e ↔ r = .error e := by
  cases r <;> simp [Except.map]

theorem bind_eq_ok {r : Except ε β} {f : β → Except ε γ} {c : γ} :
    (r >>= f) = .ok c ↔ ∃ b, r = .ok b ∧ f b = .ok c := by
  cases r <;> simp [bind, Except.bind]

theorem bind_unit_eq_ok {r : Except ε Unit} {f : Unit → Except ε γ} {c : γ} :
    (r >>= f) = .ok c ↔ r = .ok () ∧ f () = .ok c := by
  cases r <;> simp [bind, Except.bind]

theorem mapError_eq_ok {r : Except ε β} {f : ε → ε'} {b : β} :
    r.mapError f = .ok b ↔ r = .ok b := by
  cases r <;> simp [Except.mapError]

theorem forM_eq_ok {f : β → Except ε Unit} {xs : List β} :
    xs.forM f = .ok () ↔ ∀ x ∈ xs, f x = .ok () := by
  induction xs with
  | nil => simp [List.forM, pure, Except.pure]
  | cons x rest ih =>
    rw [List.forM, bind_unit_eq_ok, ih, List.forall_mem_cons]

theorem mapM_eq_ok {f : β → Except ε γ} {xs : List β} {ys : List γ} :
    xs.mapM f = .ok ys ↔ List.Forall₂ (fun x y => f x = .ok y) xs ys := by
  induction xs generalizing ys with
  | nil => simp [pure, Except.pure, eq_comm]
  | cons x rest ih =>
    rw [List.mapM_cons, bind_eq_ok, List.forall₂_cons_left_iff]
    apply exists_congr
    intro y
    rw [bind_eq_ok]
    constructor
    · rintro ⟨hy, zs, hzs, h⟩
      exact ⟨zs, hy, ih.mp hzs, (Except.ok.inj h).symm⟩
    · rintro ⟨zs, hy, hzs, rfl⟩
      exact ⟨hy, zs, ih.mpr hzs, rfl⟩

theorem mapM_eq_error {f : β → Except ε γ} {before after : List β} {x : β} {e : ε}
    (hbefore : ∀ y ∈ before, ∃ z, f y = .ok z) (hx : f x = .error e) :
    (before ++ x :: after).mapM f = .error e := by
  induction before with
  | nil =>
    rw [List.nil_append, List.mapM_cons, hx]
    rfl
  | cons y rest ih =>
    obtain ⟨⟨z, hz⟩, hrest⟩ := List.forall_mem_cons.mp hbefore
    rw [List.cons_append, List.mapM_cons, hz, ih hrest]
    rfl

theorem mapM_map {δ : Type} {f : β → Except ε γ} {f' : β → Except ε δ} {g : γ → δ}
    (h : ∀ x, f' x = (f x).map g) (xs : List β) : xs.mapM f' = (xs.mapM f).map (List.map g) := by
  induction xs with
  | nil => rfl
  | cons x rest ih =>
    rw [List.mapM_cons, List.mapM_cons, ih, h]
    cases f x with
    | error e => rfl
    | ok y => cases rest.mapM f <;> rfl

theorem mapM_eq_some {f : β → Option γ} {xs : List β} {ys : List γ} :
    xs.mapM f = some ys ↔ List.Forall₂ (fun x y => f x = some y) xs ys := by
  induction xs generalizing ys with
  | nil => simp [pure, eq_comm]
  | cons x rest ih =>
    rw [List.mapM_cons, List.forall₂_cons_left_iff]
    simp only [Option.bind_eq_bind, Option.bind_eq_some_iff, ih, Option.pure_def, Option.some.injEq]
    apply exists_congr
    intro y
    constructor
    · rintro ⟨hy, zs, hzs, h⟩
      exact ⟨zs, hy, hzs, h.symm⟩
    · rintro ⟨zs, hy, hzs, rfl⟩
      exact ⟨hy, zs, hzs, rfl⟩

theorem forall_or_first {β : Type} (P : β → Prop) (xs : List β) :
    (∀ x ∈ xs, P x) ∨
      ∃ before x after, xs = before ++ x :: after ∧ (∀ y ∈ before, P y) ∧ ¬ P x := by
  induction xs with
  | nil => exact .inl fun x hx => absurd hx List.not_mem_nil
  | cons x rest ih =>
    by_cases hx : P x
    · rcases ih with hall | ⟨before, y, after, rfl, hbefore, hy⟩
      · exact .inl (List.forall_mem_cons.mpr ⟨hx, hall⟩)
      · exact .inr ⟨x :: before, y, after, rfl, List.forall_mem_cons.mpr ⟨hx, hbefore⟩, hy⟩
    · exact .inr ⟨[], x, rest, rfl, fun y hy => absurd hy List.not_mem_nil, hx⟩

end KetSim

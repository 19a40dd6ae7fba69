import Mathlib
import KetSim.Cplx
import KetSim.Decimal.Basic

/-! # Exact arithmetic

The scalars are the real numbers with the exact square root, sine and cosine,
and pairs of them are the complex numbers. Nothing is ever rounded, so the
narrower format is the format itself.
-/
namespace KetSim

noncomputable instance : Scalar ℝ where
  ofNat n := n
  pi := Real.pi
  sqrt := Real.sqrt
  sin := Real.sin
  cos := Real.cos
  isZero x := decide (x = 0)
  less x y := decide (x < y)
  atMost x y := decide (x ≤ y)
  toSingle x := x

/-- Real numbers written by their whole part, and read in full. -/
@[reducible] noncomputable def DecimalText.whole : DecimalText ℝ where
  reading _ x := .finite (.ofInt ⌊x⌋)
  ofDecimal d := (if d.negative then -1 else 1) * d.digits * 10 ^ d.exponent

namespace Scalar

@[simp] theorem ofNat_real (n : ℕ) : (Scalar.ofNat n : ℝ) = n := rfl
@[simp] theorem pi_real : (Scalar.pi : ℝ) = Real.pi := rfl
@[simp] theorem sqrt_real (x : ℝ) : Scalar.sqrt x = √x := rfl
@[simp] theorem sin_real (x : ℝ) : Scalar.sin x = Real.sin x := rfl
@[simp] theorem cos_real (x : ℝ) : Scalar.cos x = Real.cos x := rfl
@[simp] theorem two_real : (Scalar.two : ℝ) = 2 := by simp [two]
@[simp] theorem half_real : (Scalar.half : ℝ) = 1 / 2 := by simp [half]
@[simp] theorem halfTurn_real (x : ℝ) : Scalar.halfTurn x = x * Real.pi := rfl
@[simp] theorem isZero_real (x : ℝ) : Scalar.isZero x = decide (x = 0) := rfl

end Scalar

namespace Cplx

/-- The complex number that a pair of real numbers stands for. -/
def toComplex (a : Cplx ℝ) : ℂ := ⟨a.re, a.im⟩

theorem toComplex_injective : Function.Injective toComplex := by
  intro a b h
  cases a
  cases b
  simpa [toComplex] using h

@[simp] theorem toComplex_mk (x y : ℝ) : toComplex ⟨x, y⟩ = ⟨x, y⟩ := rfl
@[simp] theorem toComplex_re (a : Cplx ℝ) : a.toComplex.re = a.re := rfl
@[simp] theorem toComplex_im (a : Cplx ℝ) : a.toComplex.im = a.im := rfl
@[simp] theorem toComplex_zero : toComplex 0 = 0 := rfl
@[simp] theorem toComplex_one : toComplex 1 = 1 := rfl
@[simp] theorem toComplex_add (a b : Cplx ℝ) : (a + b).toComplex = a.toComplex + b.toComplex := rfl
@[simp] theorem toComplex_sub (a b : Cplx ℝ) : (a - b).toComplex = a.toComplex - b.toComplex := rfl
@[simp] theorem toComplex_neg (a : Cplx ℝ) : (-a).toComplex = -a.toComplex := rfl

@[simp] theorem toComplex_mul (a b : Cplx ℝ) : (a * b).toComplex = a.toComplex * b.toComplex := by
  apply Complex.ext
  · rfl
  · rfl

@[simp] theorem toComplex_conj (a : Cplx ℝ) :
    a.conj.toComplex = starRingEnd ℂ a.toComplex := rfl

@[simp] theorem toComplex_ofReal (x : ℝ) : (ofReal x).toComplex = x := rfl

@[simp] theorem toComplex_scale (x : ℝ) (a : Cplx ℝ) :
    (scale x a).toComplex = x * a.toComplex := by
  apply Complex.ext <;> simp [scale]

@[simp] theorem toComplex_polar (r angle : ℝ) :
    (polar r angle).toComplex = r * Complex.exp (angle * Complex.I) := by
  rw [Complex.exp_mul_I]
  apply Complex.ext <;> simp [polar, Complex.cos_ofReal_re, Complex.sin_ofReal_re]

@[simp] theorem toComplex_cis (angle : ℝ) :
    (cis angle).toComplex = Complex.exp (angle * Complex.I) := by
  have h : cis angle = polar (1 : ℝ) angle := rfl
  rw [h, toComplex_polar, Complex.ofReal_one, one_mul]

theorem normSq_eq (a : Cplx ℝ) : a.normSq = Complex.normSq a.toComplex := rfl

theorem normSq_polar (r angle : ℝ) : (polar r angle).normSq = r * r := by
  rw [normSq_eq, toComplex_polar, map_mul, Complex.normSq_ofReal, Complex.normSq_eq_norm_sq,
    Complex.norm_exp_ofReal_mul_I, one_pow, mul_one]

theorem normSq_cis (angle : ℝ) : (cis angle).normSq = 1 := by
  rw [cis, normSq_polar, mul_one]

theorem conj_cis_mul (angle : ℝ) :
    starRingEnd ℂ (cis angle).toComplex * (cis angle).toComplex = 1 := by
  rw [← Complex.normSq_eq_conj_mul_self, ← normSq_eq, normSq_cis, Complex.ofReal_one]

theorem re_mul_conj (a : Cplx ℝ) : (a * a.conj).re = a.normSq := by
  change a.re * a.re - a.im * -a.im = a.re * a.re + a.im * a.im
  ring

theorem toComplex_foldl_add (xs : List (Cplx ℝ)) (a : Cplx ℝ) :
    (xs.foldl (· + ·) a).toComplex = a.toComplex + (xs.map toComplex).sum := by
  induction xs generalizing a with
  | nil => simp
  | cons x rest ih => simp [ih, add_assoc]

@[simp] theorem toComplex_sum (xs : List (Cplx ℝ)) :
    (Cplx.sum xs).toComplex = (xs.map toComplex).sum := by
  rw [Cplx.sum, toComplex_foldl_add, toComplex_zero, zero_add]

end Cplx

end KetSim

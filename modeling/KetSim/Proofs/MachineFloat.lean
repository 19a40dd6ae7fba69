import Mathlib
import KetSim.Proofs.Circuit.Alike

/-! # Machine floats

Machine floats that compare as equal are the same, or both are zeros. Arithmetic
keeps floats alike in this sense as long as no divisor is zero.
-/
namespace KetSim

namespace MachineFloat

open Float.Model (Format UnpackedFloat)
open Float.Model.UnpackedFloat (Sign unpackSign unpackExponent unpackMantissa)

/-! ## Fields of a word -/

theorem sign_injective : Function.Injective Sign.ofBitVec := by
  intro a b h
  rcases BitVec.eq_zero_or_eq_one a with rfl | rfl <;>
    rcases BitVec.eq_zero_or_eq_one b with rfl | rfl <;> simp_all [Sign.ofBitVec]

theorem eq_of_fields {b c : BitVec Format.binary64.numBits} (hs : unpackSign b = unpackSign c)
    (he : unpackExponent b = unpackExponent c) (hm : unpackMantissa b = unpackMantissa c) :
    b = c := by
  apply BitVec.eq_of_getLsbD_eq
  intro i hi
  have hi : i < 64 := hi
  by_cases hlow : i < 52
  · have hbit := congrArg (fun v => v.getLsbD i) hm
    simpa [unpackMantissa, Format.binary64, hlow] using hbit
  by_cases hmiddle : i < 63
  · have hbit := congrArg (fun v => v.getLsbD (i - 52)) he
    have hle : i - 52 ≤ 10 := by omega
    have hadd : 52 + (i - 52) = i := by omega
    simpa [unpackExponent, Format.binary64, hle, hadd] using hbit
  · obtain rfl : i = 63 := by omega
    have hbit := congrArg (fun v => v.getLsbD 0) hs
    simpa [unpackSign, Format.binary64] using hbit

theorem toNat_one_append (m : BitVec 52) : (1#1 ++ m).toNat = 2 ^ 52 + m.toNat := by
  rw [BitVec.toNat_append, ← Nat.shiftLeft_add_eq_or_of_lt m.isLt]
  rfl

/-- A word is determined by the float that it encodes, unless that is not a number. -/
theorem eq_of_unpack_eq {b c : BitVec Format.binary64.numBits}
    (hn : UnpackedFloat.unpack Format.binary64 b ≠ .notANumber)
    (h : UnpackedFloat.unpack Format.binary64 b = UnpackedFloat.unpack Format.binary64 c) :
    b = c := by
  have hb : (unpackMantissa b).toNat < 2 ^ 52 := (unpackMantissa b).isLt
  have hc : (unpackMantissa c).toNat < 2 ^ 52 := (unpackMantissa c).isLt
  have hb' := toNat_one_append (unpackMantissa b)
  have hc' := toNat_one_append (unpackMantissa c)
  unfold UnpackedFloat.unpack at h hn
  simp only at h hn
  -- Both words are infinite, zero, subnormal or normal: the mantissa of a normal number has one
  -- bit more than any subnormal one.
  split_ifs at h hn <;>
    simp only [UnpackedFloat.infinity.injEq, UnpackedFloat.zero.injEq, UnpackedFloat.finite.injEq,
      reduceCtorEq, ne_eq, not_true_eq_false, not_false_eq_true] at h hn
  · exact eq_of_fields (sign_injective h) (by simp_all) (by simp_all)
  · exact eq_of_fields (sign_injective h) (by simp_all) (by simp_all)
  · exact eq_of_fields (sign_injective h.1) (by simp_all) (BitVec.eq_of_toNat_eq h.2.1)
  · have hmantissa := h.2.1
    omega
  · have hmantissa := h.2.1
    omega
  · obtain ⟨hsign, hmantissa, hexponent⟩ := h
    refine eq_of_fields (sign_injective hsign) (BitVec.eq_of_toNat_eq ?_)
      (BitVec.eq_of_toNat_eq ?_) <;> omega

/-! ## Comparison -/

theorem eq_of_unpack_toModel {x y : Float} (hn : x.toModel.unpack ≠ .notANumber)
    (h : x.toModel.unpack = y.toModel.unpack) : x = y := by
  obtain ⟨⟨xbits, hx⟩⟩ := x
  obtain ⟨⟨ybits, hy⟩⟩ := y
  have hbits : xbits = ybits := UInt64.toBitVec_inj.mp (eq_of_unpack_eq hn h)
  subst hbits
  rfl

/-- The same value, or zeros of any signs. -/
def Near (u v : UnpackedFloat) : Prop := u = v ∨ ∃ s t, u = .zero s ∧ v = .zero t

/-- The same float, or zeros of any signs. -/
def Alike (x y : Float) : Prop :=
  x = y ∨ ∃ s t, x.toModel.unpack = .zero s ∧ y.toModel.unpack = .zero t

theorem near_of_beq {u v : UnpackedFloat} (h : u.beq v = true) : u ≠ .notANumber ∧ Near u v := by
  rw [UnpackedFloat.beq, beq_iff_eq] at h
  rcases u with (_ | _) | _ | s | ⟨_ | _, m, e, hm⟩ <;>
    rcases v with (_ | _) | _ | t | ⟨_ | _, m', e', hm'⟩ <;>
    simp_all [UnpackedFloat.compare, Near, Ordering.then_eq_eq, Ordering.swap_eq_eq]

theorem alike_of_beq {x y : Float} (h : (x == y) = true) : Alike x y := by
  have hbeq : x.toModel.unpack.beq y.toModel.unpack = true := h
  obtain ⟨hn, heq | hzero⟩ := near_of_beq hbeq
  · exact .inl (eq_of_unpack_toModel hn heq)
  · exact .inr hzero

theorem isZero_iff {x : Float} :
    Scalar.isZero x = true ↔ ∃ s, x.toModel.unpack = .zero s := by
  have hbeq : Scalar.isZero x = x.toModel.unpack.beq (.zero .positive) := rfl
  rw [hbeq, UnpackedFloat.beq, beq_iff_eq]
  rcases x.toModel.unpack with (_ | _) | _ | s | ⟨_ | _, m, e, hm⟩ <;>
    simp [UnpackedFloat.compare]

/-! ## Arithmetic -/

theorem Near.trans {u v w : UnpackedFloat} (h : Near u v) (h' : Near v w) : Near u w := by
  rcases h with rfl | ⟨s, t, rfl, rfl⟩
  · exact h'
  · rcases h' with rfl | ⟨-, t', -, rfl⟩
    · exact .inr ⟨s, t, rfl, rfl⟩
    · exact .inr ⟨s, t', rfl, rfl⟩

theorem Near.left {f : UnpackedFloat → UnpackedFloat → UnpackedFloat}
    (hf : ∀ s t w, Near (f (.zero s) w) (f (.zero t) w)) {u v : UnpackedFloat} (h : Near u v)
    (w : UnpackedFloat) : Near (f u w) (f v w) := by
  rcases h with rfl | ⟨s, t, rfl, rfl⟩
  · exact .inl rfl
  · exact hf s t w

theorem alike_pack {u v : UnpackedFloat} (h : Near u v) :
    Alike (.ofModel (.pack u)) (.ofModel (.pack v)) := by
  have hzero (s : Sign) : (Float.Model.pack (.zero s)).unpack = .zero s := by cases s <;> rfl
  rcases h with rfl | ⟨s, t, rfl, rfl⟩
  · exact .inl rfl
  · exact .inr ⟨s, t, hzero s, hzero t⟩

theorem Alike.near {x y : Float} (h : Alike x y) : Near x.toModel.unpack y.toModel.unpack := by
  rcases h with rfl | h
  · exact .inl rfl
  · exact .inr h

/-- An operation on values that keeps them near in either operand keeps floats alike. -/
theorem Alike.lift {f : UnpackedFloat → UnpackedFloat → UnpackedFloat}
    (hl : ∀ s t w, Near (f (.zero s) w) (f (.zero t) w))
    (hr : ∀ s t w, Near (f w (.zero s)) (f w (.zero t))) {x y x' y' : Float} (h : Alike x y)
    (h' : Alike x' y') : Alike (.ofModel (.pack (f x.toModel.unpack x'.toModel.unpack)))
      (.ofModel (.pack (f y.toModel.unpack y'.toModel.unpack))) :=
  alike_pack ((h.near.left hl _).trans (h'.near.left (f := fun u v => f v u) hr _))

theorem near_add_zero (s t : Sign) (w : UnpackedFloat) :
    Near (.add .binary64 (.zero s) w) (.add .binary64 (.zero t) w) ∧
      Near (.add .binary64 w (.zero s)) (.add .binary64 w (.zero t)) := by
  rcases w with _ | _ | _ | _ <;> simp only [UnpackedFloat.add, Near]
  case zero => split_ifs <;> simp
  all_goals simp

theorem near_sub_zero (s t : Sign) (w : UnpackedFloat) :
    Near (.sub .binary64 (.zero s) w) (.sub .binary64 (.zero t) w) ∧
      Near (.sub .binary64 w (.zero s)) (.sub .binary64 w (.zero t)) := by
  rcases w with _ | _ | _ | _ <;> simp only [UnpackedFloat.sub, Near]
  case zero => split_ifs <;> simp
  all_goals simp

theorem near_mul_zero (s t : Sign) (w : UnpackedFloat) :
    Near (.mul .binary64 (.zero s) w) (.mul .binary64 (.zero t) w) ∧
      Near (.mul .binary64 w (.zero s)) (.mul .binary64 w (.zero t)) := by
  rcases w with _ | _ | _ | _ <;> simp [UnpackedFloat.mul, Near]

theorem near_zero_div (s t : Sign) (w : UnpackedFloat) :
    Near (.div .binary64 (.zero s) w) (.div .binary64 (.zero t) w) := by
  rcases w with _ | _ | _ | _ <;> simp [UnpackedFloat.div, Near]

theorem congruence_alike : Scalar.Congruence Alike where
  isZero h := by
    rw [Bool.eq_iff_iff, isZero_iff, isZero_iff]
    rcases h with rfl | ⟨s, t, hx, hy⟩
    · exact Iff.rfl
    · exact iff_of_true ⟨s, hx⟩ ⟨t, hy⟩
  neg h := by
    refine alike_pack ?_
    rcases h with rfl | ⟨s, t, hx, hy⟩
    · exact .inl rfl
    · rw [hx, hy]
      exact .inr ⟨-s, -t, rfl, rfl⟩
  add := Alike.lift (fun s t w => (near_add_zero s t w).1) fun s t w => (near_add_zero s t w).2
  sub := Alike.lift (fun s t w => (near_sub_zero s t w).1) fun s t w => (near_sub_zero s t w).2
  mul := Alike.lift (fun s t w => (near_mul_zero s t w).1) fun s t w => (near_mul_zero s t w).2
  div {x y x' y'} h h' hzero := by
    obtain rfl | ⟨s, -, hx', -⟩ := h'
    · exact alike_pack (h.near.left near_zero_div _)
    · rw [isZero_iff.mpr ⟨s, hx'⟩] at hzero
      cases hzero

/-! ## The two zeros -/

/-- The floats that compare as equal without being the same are the two zeros. -/
theorem eq_or_zeros_of_beq {x y : Float} (h : (x == y) = true) :
    x = y ∨ (x = 0.0 ∧ y = -0.0) ∨ (x = -0.0 ∧ y = 0.0) := by
  have hpositive {z : Float} (hz : z.toModel.unpack = .zero .positive) : z = 0.0 :=
    eq_of_unpack_toModel (by simp [hz]) (hz.trans rfl)
  have hnegative {z : Float} (hz : z.toModel.unpack = .zero .negative) : z = -0.0 :=
    eq_of_unpack_toModel (by simp [hz]) (hz.trans rfl)
  obtain heq | ⟨s, t, hs, ht⟩ := alike_of_beq h
  · exact .inl heq
  · cases s with
    | positive =>
      cases t with
      | positive => exact .inl ((hpositive hs).trans (hpositive ht).symm)
      | negative => exact .inr (.inl ⟨hpositive hs, hnegative ht⟩)
    | negative =>
      cases t with
      | positive => exact .inr (.inr ⟨hnegative hs, hpositive ht⟩)
      | negative => exact .inl ((hnegative hs).trans (hnegative ht).symm)

end MachineFloat

end KetSim

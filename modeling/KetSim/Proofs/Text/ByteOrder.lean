import Mathlib

/-! # Order of encoded text

Text is ordered by its code points. The encoding of a lesser code point is less at some
byte, after the same bytes, so this is also the order of the encoded bytes.
-/
namespace KetSim.Text

/-- The bytes that encode a text. -/
def bytes (s : String) : List UInt8 := s.toUTF8.data.toList

theorem bytes_eq (s : String) : bytes s = s.toList.flatMap String.utf8EncodeChar := by
  conv_lhs => rw [← String.ofList_toList (s := s)]
  rw [bytes, String.toUTF8, String.toByteArray_ofList, List.utf8Encode,
    List.toList_data_toByteArray]

/-- Numbers are ordered by their digits. -/
theorem digits_lt {v w : ℕ} (base : ℕ) (h : v < w) :
    v / base < w / base ∨ v / base = w / base ∧ v % base < w % base := by
  rcases (Nat.div_le_div_right h.le).lt_or_eq with hlt | heq
  · exact .inl hlt
  · refine .inr ⟨heq, ?_⟩
    have hv := Nat.div_add_mod v base
    have hw := Nat.div_add_mod w base
    rw [heq] at hv
    omega

/-- The first of four digits of six bits in which two numbers differ. -/
theorem four_digits_lt {v w : ℕ} (h : v < w) :
    v / 262144 < w / 262144 ∨ v / 262144 = w / 262144 ∧ v / 4096 % 64 < w / 4096 % 64 ∨
      v / 4096 = w / 4096 ∧ v / 64 % 64 < w / 64 % 64 ∨ v / 64 = w / 64 ∧ v % 64 < w % 64 := by
  have hquotient (x : ℕ) : x / 4096 = x / 64 / 64 ∧ x / 262144 = x / 64 / 64 / 64 := by
    omega
  simp only [hquotient]
  rcases digits_lt 64 h with h | h
  · rcases digits_lt 64 h with h | h
    · rcases digits_lt 64 h with h | h
      · exact .inl h
      · exact .inr (.inl h)
    · exact .inr (.inr (.inl h))
  · exact .inr (.inr (.inr h))

/-- The encodings of two code points decide the order of what they start. -/
theorem utf8EncodeChar_append_lt {c d : Char} (h : c < d) (r r' : List UInt8) :
    String.utf8EncodeChar c ++ r < String.utf8EncodeChar d ++ r' := by
  have hlt : c.val.toNat < d.val.toNat := h
  have hmax : d.val.toNat < 1114112 := by
    have hvalid := d.valid
    unfold UInt32.isValidChar Nat.isValidChar at hvalid
    omega
  simp only [String.utf8EncodeChar]
  generalize c.val.toNat = v at *
  generalize d.val.toNat = w at *
  have hdigits := four_digits_lt hlt
  -- The lengths of the encodings grow with the code points, and so do their first bytes.
  split_ifs <;>
    simp (disch := omega) only [List.cons_append, List.nil_append, List.cons_lt_cons_iff,
      UInt8.lt_iff_toNat_lt, ← UInt8.toNat_inj, UInt8.toNat_ofNat', Nat.mod_eq_of_lt] <;>
    omega

theorem bytes_lt_of_lt {s t : String} (h : s < t) : bytes s < bytes t := by
  rw [bytes_eq, bytes_eq]
  rw [String.lt_iff_toList_lt] at h
  generalize s.toList = cs at h
  generalize t.toList = ds at h
  induction h with
  | nil =>
    rw [List.flatMap_nil, List.flatMap_cons]
    exact List.not_le.mp fun hle => by simp [String.utf8EncodeChar_ne_nil] at hle
  | rel hlt => exact utf8EncodeChar_append_lt hlt _ _
  | cons _ ih => exact List.append_left_lt ih

/-- Texts are ordered as the bytes that encode them. -/
theorem lt_iff_bytes_lt {s t : String} : s < t ↔ bytes s < bytes t := by
  refine ⟨bytes_lt_of_lt, fun h => ?_⟩
  rcases lt_trichotomy s t with hlt | rfl | hgt
  · exact hlt
  · exact absurd h (List.lt_irrefl _)
  · exact absurd (bytes_lt_of_lt hgt) (List.lt_asymm h)

end KetSim.Text

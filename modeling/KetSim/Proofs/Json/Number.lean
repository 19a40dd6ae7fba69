import Mathlib
import KetSim.Json.Printer
import KetSim.Json.Reader

/-! # Numbers as text

A whole number is read back from its digits. A decimal is read back from each of
its layouts, in full or with an exponent, up to trailing zeros that the normal form
drops; the reader stops where no character can continue a number.
-/
namespace KetSim

/-! ## Normal forms -/

namespace Decimal

theorem stripZeros_mul_pow {m : ℕ} (hm : m ≠ 0) (e : ℤ) (k : ℕ) :
    stripZeros (m * 10 ^ k) e = stripZeros m (e + k) := by
  induction k generalizing e with
  | zero => simp
  | succ k ih =>
    have hstep : m * 10 ^ (k + 1) = m * 10 ^ k * 10 := by rw [pow_succ, mul_assoc]
    have hne : m * 10 ^ k * 10 ≠ 0 := by positivity
    rw [hstep, stripZeros, if_pos ⟨hne, Nat.mul_mod_left _ _⟩, Nat.mul_div_cancel _ (by decide),
      ih]
    push_cast
    rw [add_assoc, add_comm (1 : ℤ)]

/-- Zeros moved from the exponent into the digits do not change the normal form. -/
theorem normalize_shift (negative : Bool) (m : ℕ) (e : ℤ) (k : ℕ) :
    normalize ⟨negative, m * 10 ^ k, e - k⟩ = normalize ⟨negative, m, e⟩ := by
  by_cases hm : m = 0
  · subst hm
    rw [Nat.zero_mul]
    rfl
  · have hne : m * 10 ^ k ≠ 0 := by positivity
    simp only [normalize, if_neg hm, if_neg hne, stripZeros_mul_pow hm, sub_add_cancel]

end Decimal

namespace Json

open Decimal (Layout zeros inFull withExponent)

/-! ## Digits -/

def Digits (cs : List Char) : Prop := ∀ c ∈ cs, c.isDigit = true

theorem digits_toDigits (n : ℕ) : Digits (Nat.toDigits 10 n) := fun _ hc =>
  Nat.isDigit_of_mem_toDigits (by decide) (by decide) hc

theorem digits_zeros (n : ℕ) : Digits (zeros n) := by
  intro c hc
  rw [List.eq_of_mem_replicate hc]
  rfl

theorem Digits.append {cs ds : List Char} (hc : Digits cs) (hd : Digits ds) : Digits (cs ++ ds) :=
  fun c h => (List.mem_append.mp h).elim (hc c) (hd c)

theorem Digits.take {cs : List Char} (h : Digits cs) (n : ℕ) : Digits (cs.take n) :=
  fun c hc => h c (List.mem_of_mem_take hc)

theorem Digits.drop {cs : List Char} (h : Digits cs) (n : ℕ) : Digits (cs.drop n) :=
  fun c hc => h c (List.mem_of_mem_drop hc)

theorem natOfDigits_eq (cs : List Char) : natOfDigits cs = Nat.ofDigitChars 10 cs 0 :=
  Nat.ofDigitChars_eq_foldl.symm

theorem natOfDigits_toDigits (n : ℕ) : natOfDigits (Nat.toDigits 10 n) = n := by
  rw [natOfDigits_eq, Nat.ofDigitChars_ten_toDigits]

theorem natOfDigits_append (cs ds : List Char) :
    natOfDigits (cs ++ ds) = natOfDigits cs * 10 ^ ds.length + natOfDigits ds := by
  have hfold : natOfDigits (cs ++ ds) = Nat.ofDigitChars 10 ds (natOfDigits cs) := by
    rw [Nat.ofDigitChars_eq_foldl, natOfDigits, List.foldl_append]
    rfl
  rw [hfold, Nat.ofDigitChars_eq_ofDigitChars_zero, natOfDigits_eq ds, mul_comm]

theorem natOfDigits_zeros (n : ℕ) : natOfDigits (zeros n) = 0 := by
  induction n with
  | zero => rfl
  | succ n ih =>
    have hzero : natOfDigits ['0'] = 0 := rfl
    rw [zeros, List.replicate_succ, ← List.singleton_append, natOfDigits_append, hzero]
    rw [zeros] at ih
    rw [ih, Nat.zero_mul]

/-- A number starts with the digit zero only if that is its whole part. -/
def Leads (whole : List Char) : Prop := whole.head? = some '0' → whole.length = 1

theorem head_toDigits {n : ℕ} (hn : n ≠ 0) : (Nat.toDigits 10 n).head? ≠ some '0' := by
  induction n using Nat.strong_induction_on with
  | _ n ih =>
    rw [Nat.toDigits_eq_if (by decide)]
    split
    · intro h
      exact hn (Nat.digitChar_eq_zero.mp (Option.some.inj h))
    · have hquotient : n / 10 ≠ 0 := by omega
      rw [List.head?_append_of_ne_nil _ Nat.toDigits_ne_nil]
      exact ih (n / 10) (by omega) hquotient

theorem leads_toDigits (n : ℕ) : Leads (Nat.toDigits 10 n) := by
  intro h
  by_cases hn : n = 0
  · subst hn
    rfl
  · exact absurd h (head_toDigits hn)

/-! ## Reading -/

/-- Nothing at the front that could continue a number. -/
def Stops (rest : List Char) : Prop :=
  ∀ c, rest.head? = some c → c.isDigit = false ∧ c ≠ '.' ∧ c ≠ 'e' ∧ c ≠ 'E'

theorem stops_nil : Stops [] := fun c h => by cases h

theorem stops_cons {c : Char} (rest : List Char) (h : c = ',' ∨ c = ']' ∨ c = '\x7d') :
    Stops (c :: rest) := by
  intro d hd
  obtain rfl := Option.some.inj hd
  rcases h with rfl | rfl | rfl <;> decide

theorem readDigits_append {cs rest : List Char} (hcs : Digits cs) (hne : cs ≠ [])
    (hrest : ∀ c, rest.head? = some c → c.isDigit = false) :
    readDigits (cs ++ rest) = some (cs, rest) := by
  have htake : rest.takeWhile Char.isDigit = [] := by
    cases rest with
    | nil => rfl
    | cons c rest => rw [List.takeWhile_cons_of_neg (by simp [hrest c rfl])]
  have hdrop : rest.dropWhile Char.isDigit = rest := by
    cases rest with
    | nil => rfl
    | cons c rest => rw [List.dropWhile_cons_of_neg (by simp [hrest c rfl])]
  unfold readDigits
  rw [List.takeWhile_append_of_pos hcs, List.dropWhile_append_of_pos hcs, htake, hdrop,
    List.append_nil]
  cases cs with
  | nil => exact absurd rfl hne
  | cons c cs => rfl

theorem readExponent_of_stops {rest : List Char} (h : Stops rest) :
    readExponent rest = some (none, rest) := by
  cases rest with
  | nil => rfl
  | cons c rest =>
    obtain ⟨-, -, he, hE⟩ := h c rfl
    simp only [readExponent, he, hE, or_self, if_false]

/-- The sign of an exponent as a layout with a plus sign writes it. -/
theorem readExponent_power (e : ℤ) {rest : List Char} (h : Stops rest) :
    readExponent ('e' :: (if e < 0 then ['-'] else ['+']) ++ Nat.toDigits 10 e.natAbs ++ rest) =
      some (some e, rest) := by
  have hread := readDigits_append (digits_toDigits e.natAbs) Nat.toDigits_ne_nil
    fun c hc => (h c hc).1
  by_cases he : e < 0
  · simp [readExponent, he, hread, natOfDigits_toDigits, abs_of_neg he]
  · simp [readExponent, he, hread, natOfDigits_toDigits, abs_of_nonneg (not_lt.mp he)]

/-- A fraction with its point, unless it has no digits. -/
def pointed (fraction : List Char) : List Char :=
  if fraction.isEmpty then [] else '.' :: fraction

def signed (negative : Bool) (body : List Char) : List Char :=
  if negative then '-' :: body else body

theorem readNumber_signed (negative : Bool) {whole fraction tail rest : List Char}
    {exponent : Option ℤ} (hwhole : Digits whole) (hne : whole ≠ []) (hleads : Leads whole)
    (hfraction : Digits fraction)
    (htail : ∀ c, tail.head? = some c → c.isDigit = false ∧ c ≠ '.')
    (hexponent : readExponent tail = some (exponent, rest)) :
    readNumber (signed negative (whole ++ (pointed fraction ++ tail))) =
      some (number negative whole fraction exponent, rest) := by
  obtain ⟨first, others, rfl⟩ := List.exists_cons_of_ne_nil hne
  have hsign : first ≠ '-' := by
    rintro rfl
    exact absurd (hwhole '-' List.mem_cons_self) (by decide)
  have hstop : ∀ c, (pointed fraction ++ tail).head? = some c → c.isDigit = false := by
    intro c hc
    unfold pointed at hc
    split at hc
    · exact (htail c hc).1
    · obtain rfl := Option.some.inj hc
      rfl
  have hread := readDigits_append hwhole hne hstop
  have hfirst : ¬ ((first :: others).head? = some '0' ∧ (first :: others).length ≠ 1) :=
    fun h => h.2 (hleads h.1)
  unfold readNumber
  split
  rename_i sign cs hcs
  obtain ⟨rfl, rfl⟩ : negative = sign ∧ first :: others ++ (pointed fraction ++ tail) = cs := by
    cases negative with
    | true => exact Prod.mk.inj hcs
    | false => simpa [signed, hsign] using hcs
  rw [hread]
  simp only [Option.bind_eq_bind, Option.bind_some, if_neg hfirst]
  cases fraction with
  | nil =>
    cases tail with
    | nil => simp [pointed, hexponent]
    | cons c tail =>
      have hpoint := (htail c rfl).2
      simp [pointed, hpoint, hexponent]
  | cons c fraction =>
    have hdigits := readDigits_append hfraction (by simp) fun c hc => (htail c hc).1
    rw [List.cons_append] at hdigits
    simp [pointed, hdigits, hexponent]

/-! ## Whole numbers -/

theorem printInt_eq (n : ℤ) : printInt n = signed (decide (n < 0)) (Nat.toDigits 10 n.natAbs) := by
  by_cases h : n < 0 <;> simp [printInt, signed, h]

theorem number_whole {n : ℤ} (h : isWord n = true) :
    number (decide (n < 0)) (Nat.toDigits 10 n.natAbs) [] none = .int n := by
  have hvalue : (if decide (n < 0) = true then -(n.natAbs : ℤ) else n.natAbs) = n := by
    by_cases hn : n < 0
    · simp [hn, abs_of_neg hn]
    · simp [hn, abs_of_nonneg (not_lt.mp hn)]
  have hzero : (decide (n < 0) && n.natAbs == 0) = false := by
    by_cases hn : n < 0
    · simp [hn.ne]
    · simp [hn]
  simp only [number, natOfDigits_toDigits, hvalue, h, hzero]
  rfl

theorem readNumber_printInt {n : ℤ} (h : isWord n = true) {rest : List Char} (hrest : Stops rest) :
    readNumber (printInt n ++ rest) = some (.int n, rest) := by
  have hnone : Digits [] := fun c hc => absurd hc List.not_mem_nil
  have hread := readNumber_signed (decide (n < 0)) (digits_toDigits n.natAbs)
    Nat.toDigits_ne_nil (leads_toDigits _) hnone
    (fun c hc => ⟨(hrest c hc).1, (hrest c hc).2.1⟩) (readExponent_of_stops hrest)
  rw [number_whole h] at hread
  rw [printInt_eq, ← hread]
  congr 1
  cases decide (n < 0) <;> rfl

/-! ## Decimals -/

/-- What the reader makes of digits around a point and an exponent that a decimal was cut into. -/
theorem number_decimal {negative : Bool} {whole fraction : List Char} {exponent : Option ℤ}
    {m k : ℕ} {e : ℤ} (hsome : fraction ≠ [] ∨ exponent.isSome = true)
    (hdigits : natOfDigits (whole ++ fraction) = m * 10 ^ k)
    (hexponent : exponent.getD 0 - fraction.length = e - k) :
    number negative whole fraction exponent = .decimal (Decimal.normalize ⟨negative, m, e⟩) := by
  have hfails : (fraction.isEmpty && exponent.isNone) = false := by
    rcases hsome with h | h
    · simp [h]
    · cases exponent with
      | none => cases h
      | some x => simp
  simp only [number, hfails, Bool.false_and, hdigits, hexponent, Decimal.normalize_shift]
  rfl

/-- The text of a decimal, cut into a whole part, a fraction and an exponent that the reader puts
together again. -/
structure Cut (text : List Char) (m : ℕ) (e : ℤ) where
  whole : List Char
  fraction : List Char
  tail : List Char
  exponent : Option ℤ
  text_eq : text = whole ++ (pointed fraction ++ tail)
  digits_whole : Digits whole
  whole_ne : whole ≠ []
  leads : Leads whole
  digits_fraction : Digits fraction
  decimal : fraction ≠ [] ∨ exponent.isSome = true
  tail_start : ∀ c, tail.head? = some c → c = 'e'
  read_tail : ∀ rest, Stops rest → readExponent (tail ++ rest) = some (exponent, rest)
  shift : ℕ
  value : natOfDigits (whole ++ fraction) = m * 10 ^ shift
  scale : exponent.getD 0 - fraction.length = e - shift

theorem Cut.read {text : List Char} {m : ℕ} {e : ℤ} (cut : Cut text m e) (negative : Bool)
    {rest : List Char} (hrest : Stops rest) : readNumber (signed negative text ++ rest) =
      some (.decimal (Decimal.normalize ⟨negative, m, e⟩), rest) := by
  have htail : ∀ c, (cut.tail ++ rest).head? = some c → c.isDigit = false ∧ c ≠ '.' := by
    intro c hc
    cases htail : cut.tail with
    | nil =>
      rw [htail] at hc
      exact ⟨(hrest c hc).1, (hrest c hc).2.1⟩
    | cons d others =>
      rw [htail] at hc
      obtain rfl := Option.some.inj hc
      rw [cut.tail_start d (by rw [htail]; rfl)]
      decide
  have hread := readNumber_signed negative cut.digits_whole cut.whole_ne cut.leads
    cut.digits_fraction htail (cut.read_tail rest hrest)
  rw [number_decimal cut.decimal cut.value cut.scale] at hread
  have htext : signed negative text ++ rest =
      signed negative (cut.whole ++ (pointed cut.fraction ++ (cut.tail ++ rest))) := by
    cases negative <;> simp [signed, cut.text_eq]
  rw [htext, hread]

variable {digits : List Char} {e : ℤ}

theorem cut_inFull (hne : digits ≠ []) (hdigits : Digits digits)
    (hzero : digits.head? = some '0' → digits = ['0'] ∧ e = 0) :
    Nonempty (Cut (inFull true digits (digits.length + e)) (natOfDigits digits) e) := by
  have hnone (rest : List Char) (h : Stops rest) : readExponent ([] ++ rest) = some (none, rest) :=
    readExponent_of_stops h
  unfold inFull
  split
  case isTrue hpoint =>
    refine ⟨['0'], zeros (-(digits.length + e)).toNat ++ digits, [], none, by simp [pointed, hne],
      digits_zeros 1, by simp, fun _ => rfl, (digits_zeros _).append hdigits,
      .inl (by simp [hne]), by simp, hnone, 0, ?_, ?_⟩
    · have hfirst : ['0'] ++ (zeros (-(digits.length + e)).toNat ++ digits) =
          zeros ((-(digits.length + e)).toNat + 1) ++ digits := by
        simp [zeros, List.replicate_succ]
      rw [hfirst, natOfDigits_append, natOfDigits_zeros]
      simp
    · simp [zeros]
      omega
  case isFalse hpoint =>
    obtain ⟨point, hpointEq⟩ : ∃ point : ℕ, (digits.length : ℤ) + e = point :=
      ⟨((digits.length : ℤ) + e).toNat, by omega⟩
    have hpos : 0 < point := by omega
    rw [hpointEq, Int.toNat_natCast]
    by_cases hlong : digits.length ≤ point
    · rw [List.drop_eq_nil_of_le hlong, List.take_of_length_le hlong]
      refine ⟨digits ++ zeros (point - digits.length), ['0'], [], none, by simp [pointed],
        hdigits.append (digits_zeros _), by simp [hne], ?_, digits_zeros 1, .inl (by simp),
        by simp, hnone, point - digits.length + 1, ?_, ?_⟩
      · intro hhead
        rw [List.head?_append_of_ne_nil _ hne] at hhead
        obtain ⟨rfl, rfl⟩ := hzero hhead
        obtain rfl : point = 1 := by simpa using hpointEq.symm
        rfl
      · have htail : zeros (point - digits.length) ++ ['0'] = zeros (point - digits.length + 1) := by
          rw [zeros, zeros, List.replicate_succ']
        rw [List.append_assoc, htail, natOfDigits_append, natOfDigits_zeros]
        simp [zeros]
      · simp
        omega
    · obtain ⟨c, rest, hdrop⟩ : ∃ c rest, digits.drop point = c :: rest :=
        List.exists_cons_of_ne_nil (by simpa using hlong)
      have hfill : point - digits.length = 0 := by omega
      have hlength : (digits.drop point).length = digits.length - point := List.length_drop
      rw [hdrop] at hlength
      have hsplit : digits.take point ++ c :: rest = digits := by
        rw [← hdrop, List.take_append_drop]
      simp only [hdrop, hfill]
      refine ⟨digits.take point, c :: rest, [], none, by simp [pointed, zeros],
        hdigits.take point, by simp [hne]; omega, ?_, hdrop ▸ hdigits.drop point,
        .inl (by simp), by simp, hnone, 0, by simp [hsplit], ?_⟩
      · intro hhead
        rw [List.head?_take, if_neg (by omega)] at hhead
        obtain ⟨rfl, rfl⟩ := hzero hhead
        simp at hlong
        omega
      · simp only [Option.getD_none, Nat.cast_zero, hlength]
        omega

theorem cut_withExponent (hne : digits ≠ []) (hdigits : Digits digits) :
    Nonempty (Cut (withExponent true digits (digits.length + e - 1)) (natOfDigits digits) e) := by
  obtain ⟨first, others, rfl⟩ := List.exists_cons_of_ne_nil hne
  have hfirst : Digits [first] := fun c hc => hdigits c (by simp_all)
  generalize hpower : ((first :: others).length : ℤ) + e - 1 = power
  have hread (rest : List Char) (h : Stops rest) := readExponent_power power h
  refine ⟨[first], others, _, some power, ?_, hfirst, by simp, fun _ => rfl, fun c hc => ?_,
    .inr rfl, ?_, hread, 0, ?_, ?_⟩
  · cases others with
    | nil => simp [withExponent, pointed]
    | cons second others => simp [withExponent, pointed]
  · exact hdigits c (List.mem_cons_of_mem _ hc)
  · intro c hc
    exact (Option.some.inj hc).symm
  · simp
  · simp at hpower ⊢
    omega

/-- The text of a decimal is a sign with a cut of its digits and its exponent. -/
theorem exists_cut_write {d : Decimal} (hd : d.digits = 0 → d.exponent = 0) :
    ∃ text, Layout.data.write d = signed d.negative text ∧
      Nonempty (Cut text d.digits d.exponent) := by
  have hwrite : Layout.data.write d = signed d.negative
      (if Layout.data.positional ((Nat.toDigits 10 d.digits).length + d.exponent - 1) then
        inFull true (Nat.toDigits 10 d.digits) ((Nat.toDigits 10 d.digits).length + d.exponent)
      else withExponent true (Nat.toDigits 10 d.digits)
        ((Nat.toDigits 10 d.digits).length + d.exponent - 1)) := rfl
  have hzero : (Nat.toDigits 10 d.digits).head? = some '0' →
      Nat.toDigits 10 d.digits = ['0'] ∧ d.exponent = 0 := by
    intro hhead
    have hdigits : d.digits = 0 := by
      by_contra hne
      exact head_toDigits hne hhead
    rw [hdigits]
    exact ⟨rfl, hd hdigits⟩
  have hfull := cut_inFull Nat.toDigits_ne_nil (digits_toDigits d.digits) hzero
  have hpower := cut_withExponent (e := d.exponent) Nat.toDigits_ne_nil (digits_toDigits d.digits)
  rw [natOfDigits_toDigits] at hfull hpower
  refine ⟨_, hwrite, ?_⟩
  split
  · exact hfull
  · exact hpower

/-- The text of a decimal is read back as its normal form. -/
theorem readNumber_write {d : Decimal} (hd : d.digits = 0 → d.exponent = 0) {rest : List Char}
    (hrest : Stops rest) :
    readNumber (Layout.data.write d ++ rest) = some (.decimal d.normalize, rest) := by
  obtain ⟨text, htext, ⟨cut⟩⟩ := exists_cut_write hd
  rw [htext, cut.read d.negative hrest]

/-! ## First characters -/

theorem signed_ne_nil (negative : Bool) {body : List Char} (h : body ≠ []) :
    signed negative body ≠ [] := by
  cases negative with
  | true => exact List.cons_ne_nil _ _
  | false => exact h

theorem printInt_ne_nil (n : ℤ) : printInt n ≠ [] := by
  rw [printInt_eq]
  exact signed_ne_nil _ Nat.toDigits_ne_nil

theorem write_ne_nil {d : Decimal} (hd : d.digits = 0 → d.exponent = 0) :
    Layout.data.write d ≠ [] := by
  obtain ⟨text, htext, ⟨cut⟩⟩ := exists_cut_write hd
  rw [htext]
  refine signed_ne_nil _ ?_
  rw [cut.text_eq]
  exact List.append_ne_nil_of_left_ne_nil cut.whole_ne _

/-- What is read as a number starts with a digit or a minus sign. -/
theorem head_of_readNumber {cs : List Char} {r : Json × List Char} (h : readNumber cs = some r) :
    ∃ c rest, cs = c :: rest ∧ (c = '-' ∨ c.isDigit = true) := by
  cases cs with
  | nil => cases h
  | cons c rest =>
    refine ⟨c, rest, rfl, ?_⟩
    by_contra hstart
    rw [not_or, Bool.not_eq_true] at hstart
    have hnone : readDigits (c :: rest) = none := by
      rw [readDigits, List.takeWhile_cons_of_neg (by simp [hstart.2])]
    unfold readNumber at h
    split at h
    rename_i negative cs hcs
    obtain ⟨rfl, rfl⟩ : false = negative ∧ c :: rest = cs := by simpa [hstart.1] using hcs
    rw [hnone] at h
    cases h

theorem ne_of_starts {c d : Char} (hc : c = '-' ∨ c.isDigit = true) (hminus : d ≠ '-')
    (hdigit : d.isDigit = false) : c ≠ d := by
  rintro rfl
  rcases hc with rfl | hc
  · exact hminus rfl
  · rw [hdigit] at hc
    cases hc

end Json

end KetSim

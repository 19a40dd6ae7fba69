import KetSim.Proofs.Json.Number

/-! # Values as text

Every value whose numbers are in normal form is read back from its text, whatever
characters its strings hold, if its nesting stays within the bound of the reader.
-/
namespace KetSim.Json

/-! ## Strings -/

theorem hexValue_digitChar : ∀ d < 16, hexValue (Nat.digitChar d) = some d := by decide

theorem readCodePoint_hexByte {n : ℕ} (hn : n < 0x20) (rest : List Char) :
    readCodePoint ('0' :: '0' :: (hexByte n ++ rest)) = some (Char.ofNat n, rest) := by
  have hzero : hexValue '0' = some 0 := by decide
  have hhigh := hexValue_digitChar (n / 16 % 16) (Nat.mod_lt _ (by decide))
  have hlow := hexValue_digitChar (n % 16) (Nat.mod_lt _ (by decide))
  have hunit : readUnit ('0' :: '0' :: (hexByte n ++ rest)) = some (n, rest) := by
    simp only [hexByte, List.cons_append, List.nil_append, readUnit, hzero, hhigh, hlow,
      Option.bind_eq_bind, Option.bind_some]
    congr 2
    omega
  have hplain : ¬ (0xd800 ≤ n ∧ n < 0xdc00) := by omega
  have hhalf : ¬ (0xdc00 ≤ n ∧ n < 0xe000) := by omega
  simp only [readCodePoint, hunit, Option.bind_eq_bind, Option.bind_some, if_neg hplain,
    if_neg hhalf]

/-- A character in its escaped form is read as the character. -/
theorem readChars_escapeChar (b c : Char) (bound cs : List Char) :
    readChars (b :: bound) (escapeChar c ++ cs) =
      (readChars bound cs).map fun (chars, rest) => (c :: chars, rest) := by
  unfold escapeChar
  split
  case h_8 hquote hslash hback hfeed hline hreturn htab =>
    split
    case isTrue hcontrol =>
      have hread := readCodePoint_hexByte hcontrol cs
      rw [Char.ofNat_toNat] at hread
      simp only [List.cons_append, List.nil_append, readChars, hread, Option.bind_eq_bind,
        Option.bind_some]
      cases readChars bound cs <;> rfl
    case isFalse hcontrol =>
      rw [List.singleton_append, readChars, if_neg hcontrol]
      · cases readChars bound cs <;> rfl
      · exact hquote
      · exact hslash
  all_goals
    simp only [List.cons_append, List.nil_append, readChars, Option.bind_eq_bind, Option.bind_some]
    cases readChars bound cs <;> rfl

theorem readChars_flatMap {chars bound : List Char} (h : chars.length < bound.length)
    (rest : List Char) :
    readChars bound (chars.flatMap escapeChar ++ '"' :: rest) = some (chars, rest) := by
  induction chars generalizing bound with
  | nil =>
    obtain ⟨b, bound, rfl⟩ := List.exists_cons_of_length_pos h
    rfl
  | cons c chars ih =>
    obtain ⟨b, bound, rfl⟩ := List.exists_cons_of_length_pos (Nat.zero_lt_of_lt h)
    rw [List.flatMap_cons, List.append_assoc, readChars_escapeChar,
      ih (Nat.lt_of_succ_lt_succ h)]
    rfl

theorem length_le_flatMap_escapeChar (chars : List Char) :
    chars.length ≤ (chars.flatMap escapeChar).length := by
  induction chars with
  | nil => exact le_rfl
  | cons c chars ih =>
    have hne : 0 < (escapeChar c).length := by
      unfold escapeChar
      repeat' split
      all_goals simp
    rw [List.flatMap_cons, List.length_append, List.length_cons]
    omega

/-- The text of a string after its opening quote. -/
theorem readString_printString (s : String) (rest : List Char) :
    ∃ cs, printString s ++ rest = '"' :: cs ∧ readString cs = some (s, rest) := by
  refine ⟨s.toList.flatMap escapeChar ++ '"' :: rest, by simp [printString], ?_⟩
  have hlength := length_le_flatMap_escapeChar s.toList
  have hbound : s.toList.length < (s.toList.flatMap escapeChar ++ '"' :: rest).length := by
    rw [List.length_append, List.length_cons]
    omega
  rw [readString, readChars_flatMap hbound]
  simp

/-! ## Sequences -/

section

variable {β : Type}

/-- Items in front of other text, each after a comma. -/
def printMore (print : β → List Char → List Char) (xs : List β) (rest : List Char) : List Char :=
  xs.foldr (fun x rest => ',' :: print x rest) rest

def printAll (print : β → List Char → List Char) : List β → List Char → List Char
  | [], rest => rest
  | x :: xs, rest => print x (printMore print xs rest)

theorem printMoreItems_eq (items : List Json) (rest : List Char) :
    printMoreItems items rest = printMore printBefore items rest := by
  induction items with
  | nil => rfl
  | cons item items ih => rw [printMoreItems, ih, printMore, printMore, List.foldr_cons]

theorem printItems_eq (items : List Json) (rest : List Char) :
    printItems items rest = printAll printBefore items rest := by
  cases items with
  | nil => rfl
  | cons item items => rw [printItems, printMoreItems_eq, printAll]

theorem printMoreMembers_eq (members : List (String × Json)) (rest : List Char) :
    printMoreMembers members rest = printMore printMember members rest := by
  induction members with
  | nil => rfl
  | cons member members ih => rw [printMoreMembers, ih, printMore, printMore, List.foldr_cons]

theorem printMembers_eq (members : List (String × Json)) (rest : List Char) :
    printMembers members rest = printAll printMember members rest := by
  cases members with
  | nil => rfl
  | cons member members => rw [printMembers, printMoreMembers_eq, printAll]

/-- A text that starts with neither a blank nor the end of a sequence. -/
def Opens (cs : List Char) : Prop :=
  ∃ c rest, cs = c :: rest ∧ isBlank c = false ∧ c ≠ ']' ∧ c ≠ '\x7d'

theorem Opens.skipBlanks {cs : List Char} (h : Opens cs) : skipBlanks cs = cs := by
  obtain ⟨c, rest, rfl, hblank, -⟩ := h
  exact List.dropWhile_cons_of_neg (by simp [hblank])

/-- An item is read back from its text, whatever text that ends a value follows it. -/
structure Reads (print : β → List Char → List Char) (item : Read β) (x : β) : Prop where
  opens : ∀ rest, Stops rest → Opens (print x rest)
  grows : ∀ rest, Stops rest → rest.length < (print x rest).length
  read : ∀ rest, Stops rest → item (print x rest) = some (x, rest)

variable {print : β → List Char → List Char} {item : Read β} {close : Char}

theorem stops_printMore (print : β → List Char → List Char) (xs : List β) {rest : List Char}
    (h : Stops rest) : Stops (printMore print xs rest) := by
  cases xs with
  | nil => exact h
  | cons x xs => exact stops_cons _ (.inl rfl)

theorem length_le_printMore {xs : List β} (h : ∀ x ∈ xs, Reads print item x) {rest : List Char}
    (hrest : Stops rest) : xs.length + rest.length ≤ (printMore print xs rest).length := by
  induction xs with
  | nil => exact (Nat.zero_add _).le
  | cons x xs ih =>
    have hgrows := (h x List.mem_cons_self).grows _ (stops_printMore print xs hrest)
    have htail := ih fun y hy => h y (List.mem_cons_of_mem _ hy)
    have hcons : printMore print (x :: xs) rest = ',' :: print x (printMore print xs rest) := rfl
    rw [hcons, List.length_cons, List.length_cons]
    omega

theorem readSequence_printMore (hclose : close = ']' ∨ close = '\x7d') {x : β} {xs : List β}
    (h : ∀ y ∈ x :: xs, Reads print item y) {bound : List Char} (hbound : xs.length < bound.length)
    (rest : List Char) :
    readSequence close item bound (print x (printMore print xs (close :: rest))) =
      some (x :: xs, rest) := by
  have hstops : Stops (close :: rest) := stops_cons rest (.inr hclose)
  induction xs generalizing x bound with
  | nil =>
    obtain ⟨b, bound, rfl⟩ := List.exists_cons_of_length_pos hbound
    have hx := h x List.mem_cons_self
    have hblank : skipBlanks (close :: rest) = close :: rest :=
      List.dropWhile_cons_of_neg (by rcases hclose with rfl | rfl <;> decide)
    rw [printMore, List.foldr_nil, readSequence, (hx.opens _ hstops).skipBlanks,
      hx.read _ hstops]
    simp [hblank]
  | cons y ys ih =>
    obtain ⟨b, bound, rfl⟩ := List.exists_cons_of_length_pos (Nat.zero_lt_of_lt hbound)
    have hx := h x List.mem_cons_self
    have hmore := stops_printMore print (y :: ys) hstops
    have hrest := ih (fun z hz => h z (List.mem_cons_of_mem _ hz)) (Nat.lt_of_succ_lt_succ hbound)
    have hcomma : ',' ≠ close := by rcases hclose with rfl | rfl <;> decide
    have hcons : skipBlanks (printMore print (y :: ys) (close :: rest)) =
        ',' :: print y (printMore print ys (close :: rest)) := rfl
    rw [readSequence, (hx.opens _ hmore).skipBlanks, hx.read _ hmore]
    simp [hcons, hcomma, hrest]

theorem readUntil_printAll (hclose : close = ']' ∨ close = '\x7d') {xs : List β}
    (h : ∀ x ∈ xs, Reads print item x) (rest : List Char) :
    readUntil close item (printAll print xs (close :: rest)) = some (xs, rest) := by
  have hstops : Stops (close :: rest) := stops_cons rest (.inr hclose)
  cases xs with
  | nil =>
    have hblank : skipBlanks (close :: rest) = close :: rest :=
      List.dropWhile_cons_of_neg (by rcases hclose with rfl | rfl <;> decide)
    rw [printAll, readUntil, hblank]
    simp
  | cons x xs =>
    have hx := h x List.mem_cons_self
    have hmore := stops_printMore print xs hstops
    have hlength := length_le_printMore (fun y hy => h y (List.mem_cons_of_mem x hy)) hstops
    have hgrows := hx.grows _ hmore
    have hread := readSequence_printMore hclose h
      (show xs.length < (print x (printMore print xs (close :: rest))).length by omega) rest
    obtain ⟨c, cs, hcs, hblank, hbracket, hbrace⟩ := hx.opens _ hmore
    have hne : c ≠ close := by
      rcases hclose with rfl | rfl
      · exact hbracket
      · exact hbrace
    have hskip := (hx.opens _ hmore).skipBlanks
    rw [printAll, readUntil, hskip]
    rw [hcs] at hread ⊢
    simp only [if_neg hne, hread]

theorem length_lt_printAll {xs : List β} (h : ∀ x ∈ xs, Reads print item x) {rest : List Char}
    (hrest : Stops rest) : rest.length ≤ (printAll print xs rest).length := by
  cases xs with
  | nil => exact le_rfl
  | cons x xs =>
    have hgrows := (h x List.mem_cons_self).grows _ (stops_printMore print xs hrest)
    have htail := length_le_printMore (fun y hy => h y (List.mem_cons_of_mem x hy)) hrest
    rw [printAll]
    omega

end

/-! ## Values -/

/-- Values whose numbers are in normal form and whose arrays and objects nest at most this deep. -/
inductive Plain : ℕ → Json → Prop
  | null {depth : ℕ} : Plain depth .null
  | bool {depth : ℕ} (b : Bool) : Plain depth (.bool b)
  | int {depth : ℕ} {n : ℤ} (h : isWord n = true) : Plain depth (.int n)
  | decimal {depth : ℕ} {d : Decimal} (h : d.normalize = d) : Plain depth (.decimal d)
  | str {depth : ℕ} (s : String) : Plain depth (.str s)
  | arr {depth : ℕ} {items : List Json} (h : ∀ j ∈ items, Plain depth j) :
      Plain (depth + 1) (.arr items)
  | obj {depth : ℕ} {members : List (String × Json)} (h : ∀ m ∈ members, Plain depth m.2) :
      Plain (depth + 1) (.obj members)

theorem Plain.mono {depth deeper : ℕ} {j : Json} (h : Plain depth j) (hle : depth ≤ deeper) :
    Plain deeper j := by
  induction h generalizing deeper with
  | null => exact .null
  | bool b => exact .bool b
  | int h => exact .int h
  | decimal h => exact .decimal h
  | str s => exact .str s
  | arr _ ih =>
    obtain ⟨deeper, rfl⟩ : ∃ k, deeper = k + 1 := ⟨deeper - 1, by omega⟩
    exact .arr fun j hj => ih j hj (Nat.le_of_succ_le_succ hle)
  | obj _ ih =>
    obtain ⟨deeper, rfl⟩ : ∃ k, deeper = k + 1 := ⟨deeper - 1, by omega⟩
    exact .obj fun m hm => ih m hm (Nat.le_of_succ_le_succ hle)

/-- A number is told by its first character. -/
theorem read_of_readNumber (depth : ℕ) {cs : List Char} {r : Json × List Char}
    (h : readNumber cs = some r) : read depth cs = some r := by
  obtain ⟨c, rest, rfl, hc⟩ := head_of_readNumber h
  rw [← h]
  unfold read
  split
  all_goals first
    | rfl
    | rename_i hcons
      obtain ⟨rfl, -⟩ := List.cons.inj hcons
      exact absurd rfl (ne_of_starts hc (by decide) (by decide))

theorem opens_of_readNumber {cs : List Char} {r : Json × List Char} (h : readNumber cs = some r) :
    Opens cs := by
  obtain ⟨c, rest, rfl, hc⟩ := head_of_readNumber h
  refine ⟨c, rest, rfl, ?_, ne_of_starts hc (by decide) (by decide),
    ne_of_starts hc (by decide) (by decide)⟩
  simp only [isBlank, Bool.or_eq_false_iff, beq_eq_false_iff_ne]
  refine ⟨⟨⟨?_, ?_⟩, ?_⟩, ?_⟩ <;> exact ne_of_starts hc (by decide) (by decide)

theorem reads_of_readNumber (depth : ℕ) {j : Json} {text : List Char} (hne : text ≠ [])
    (hprint : ∀ rest, j.printBefore rest = text ++ rest)
    (hread : ∀ rest, Stops rest → readNumber (text ++ rest) = some (j, rest)) :
    Reads printBefore (read depth) j := by
  refine ⟨fun rest hrest => ?_, fun rest hrest => ?_, fun rest hrest => ?_⟩
  · rw [hprint]
    exact opens_of_readNumber (hread rest hrest)
  · rw [hprint, List.length_append]
    have hpos := List.length_pos_of_ne_nil hne
    omega
  · rw [hprint]
    exact read_of_readNumber depth (hread rest hrest)

theorem reads_member {depth : ℕ} {m : String × Json}
    (h : Reads printBefore (read depth) m.2) : Reads printMember (readMember (read depth)) m := by
  obtain ⟨key, value⟩ := m
  refine ⟨fun rest _ => ?_, fun rest hrest => ?_, fun rest hrest => ?_⟩
  · obtain ⟨cs, hcs, -⟩ := readString_printString key (':' :: value.printBefore rest)
    exact ⟨'"', cs, hcs, by decide, by decide, by decide⟩
  · have hgrows : rest.length < (value.printBefore rest).length := h.grows rest hrest
    simp only [printMember, List.length_append, List.length_cons]
    omega
  · obtain ⟨cs, hcs, hread⟩ := readString_printString key (':' :: value.printBefore rest)
    have hcolon : skipBlanks (':' :: value.printBefore rest) = ':' :: value.printBefore rest := rfl
    rw [printMember, hcs, readMember, hread]
    simp [hcolon, expect, (h.opens rest hrest).skipBlanks, h.read rest hrest]

/-- A plain value is read back from its text. -/
theorem Plain.reads {depth : ℕ} {j : Json} (h : Plain depth j) :
    Reads printBefore (read depth) j := by
  induction h with
  | null =>
    exact ⟨fun rest _ => ⟨'n', _, rfl, by decide⟩, fun rest _ => by simp [printBefore]; omega,
      fun rest _ => by simp [printBefore, read, expect]⟩
  | bool b =>
    cases b with
    | true =>
      exact ⟨fun rest _ => ⟨'t', _, rfl, by decide⟩, fun rest _ => by simp [printBefore]; omega,
        fun rest _ => by simp [printBefore, read, expect]⟩
    | false =>
      exact ⟨fun rest _ => ⟨'f', _, rfl, by decide⟩, fun rest _ => by simp [printBefore]; omega,
        fun rest _ => by simp [printBefore, read, expect]⟩
  | int h =>
    exact reads_of_readNumber _ (printInt_ne_nil _) (fun rest => rfl)
      fun rest hrest => readNumber_printInt h hrest
  | @decimal depth d h =>
    have hzero : d.digits = 0 → d.exponent = 0 := by
      intro hdigits
      rw [← h, Decimal.normalize, if_pos hdigits]
    apply reads_of_readNumber _ (write_ne_nil hzero) (fun rest => rfl)
    intro rest hrest
    rw [readNumber_write hzero hrest, h]
  | str s =>
    refine ⟨fun rest _ => ?_, fun rest _ => ?_, fun rest _ => ?_⟩
    · obtain ⟨cs, hcs, -⟩ := readString_printString s rest
      exact ⟨'"', cs, hcs, by decide⟩
    · simp only [printBefore, printString, List.length_append, List.length_cons]
      omega
    · obtain ⟨cs, hcs, hread⟩ := readString_printString s rest
      rw [printBefore, hcs]
      simp [read, hread]
  | @arr depth items _ ih =>
    refine ⟨fun rest _ => ⟨'[', _, rfl, by decide⟩, fun rest _ => ?_, fun rest _ => ?_⟩
    · have hlength := length_lt_printAll ih (stops_cons rest (.inr (.inl rfl)))
      simp only [printBefore, printItems_eq, List.length_cons] at hlength ⊢
      omega
    · have hread := readUntil_printAll (.inl rfl) ih rest
      simp [printBefore, printItems_eq, read, hread]
  | @obj depth members _ ih =>
    have hmembers : ∀ m ∈ members, Reads printMember (readMember (read depth)) m :=
      fun m hm => reads_member (ih m hm)
    refine ⟨fun rest _ => ⟨'\x7b', _, rfl, by decide⟩, fun rest _ => ?_, fun rest _ => ?_⟩
    · have hlength := length_lt_printAll hmembers (stops_cons rest (.inr (.inr rfl)))
      simp only [printBefore, printMembers_eq, List.length_cons] at hlength ⊢
      omega
    · have hread := readUntil_printAll (.inr rfl) hmembers rest
      simp [printBefore, printMembers_eq, read, hread]

/-- The text of a plain value is parsed as the value. -/
theorem Plain.parseWithin_text {depth : ℕ} {j : Json} (h : Plain depth j) :
    parseWithin depth j.text = some j := by
  have hreads := h.reads
  have hskip := (hreads.opens [] stops_nil).skipBlanks
  have hread := hreads.read [] stops_nil
  rw [parseWithin, text, print, String.toList_ofList, hskip, hread]
  rfl

end KetSim.Json

import KetSim.Json.Basic

/-! # JSON reader

A value is read from the front of a list of characters and returned with the
rest. The first argument of `read` bounds the nesting of arrays and objects.
-/
namespace KetSim.Json

abbrev Read (β : Type) := List Char → Option (β × List Char)

def isBlank (c : Char) : Bool := c == ' ' || c == '\t' || c == '\n' || c == '\r'

def skipBlanks (cs : List Char) : List Char := cs.dropWhile isBlank

def expect : List Char → List Char → Option (List Char)
  | [], cs => some cs
  | c :: word, d :: cs => if c = d then expect word cs else none
  | _ :: _, [] => none

def hexValue (c : Char) : Option Nat :=
  if '0' ≤ c ∧ c ≤ '9' then some (c.toNat - '0'.toNat)
  else if 'a' ≤ c ∧ c ≤ 'f' then some (c.toNat - 'a'.toNat + 10)
  else if 'A' ≤ c ∧ c ≤ 'F' then some (c.toNat - 'A'.toNat + 10)
  else none

def readUnit : Read Nat
  | a :: b :: c :: d :: cs => do
    let a ← hexValue a
    let b ← hexValue b
    let c ← hexValue c
    let d ← hexValue d
    some (((a * 16 + b) * 16 + c) * 16 + d, cs)
  | _ => none

/-- The character after a backslash and `u`: two units where the first is the high
half of a pair, and no other half of a pair. -/
def readCodePoint (cs : List Char) : Option (Char × List Char) := do
  let (high, cs) ← readUnit cs
  if 0xd800 ≤ high ∧ high < 0xdc00 then
    let cs ← expect ['\\', 'u'] cs
    let (low, cs) ← readUnit cs
    if 0xdc00 ≤ low ∧ low < 0xe000 then
      some (Char.ofNat (0x10000 + (high - 0xd800) * 0x400 + (low - 0xdc00)), cs)
    else none
  else if 0xdc00 ≤ high ∧ high < 0xe000 then none
  else some (Char.ofNat high, cs)

/-- The characters up to the closing quote; each takes one of the first list. -/
def readChars : List Char → Read (List Char)
  | [], _ => none
  | _ :: _, [] => none
  | _ :: _, '"' :: cs => some ([], cs)
  | _ :: bound, '\\' :: cs => do
    let (c, cs) ← match cs with
      | '"' :: cs => some ('"', cs)
      | '\\' :: cs => some ('\\', cs)
      | '/' :: cs => some ('/', cs)
      | 'b' :: cs => some ('\x08', cs)
      | 'f' :: cs => some ('\x0c', cs)
      | 'n' :: cs => some ('\n', cs)
      | 'r' :: cs => some ('\r', cs)
      | 't' :: cs => some ('\t', cs)
      | 'u' :: cs => readCodePoint cs
      | _ => none
    let (rest, cs) ← readChars bound cs
    some (c :: rest, cs)
  | _ :: bound, c :: cs =>
    if c.toNat < 0x20 then none
    else do
      let (rest, cs) ← readChars bound cs
      some (c :: rest, cs)

/-- A string whose opening quote has been read; the characters at hand bound its length. -/
def readString (cs : List Char) : Option (String × List Char) := do
  let (chars, rest) ← readChars cs cs
  some (String.ofList chars, rest)

def digitValue (c : Char) : Nat := c.toNat - '0'.toNat

def natOfDigits (digits : List Char) : Nat := digits.foldl (fun n c => 10 * n + digitValue c) 0

/-- The longest run of decimal digits, which must not be empty. -/
def readDigits (cs : List Char) : Option (List Char × List Char) :=
  match cs.takeWhile Char.isDigit with
  | [] => none
  | digits => some (digits, cs.dropWhile Char.isDigit)

/-- An exponent mark with its optional sign and its digits, if there is one. -/
def readExponent : List Char → Option (Option Int × List Char)
  | c :: cs =>
    if c = 'e' ∨ c = 'E' then
      let (negative, cs) := match cs with
        | '-' :: cs => (true, cs)
        | '+' :: cs => (false, cs)
        | cs => (false, cs)
      do
        let (digits, cs) ← readDigits cs
        let n : Int := natOfDigits digits
        some (some (if negative then -n else n), cs)
    else some (none, c :: cs)
  | [] => some (none, [])

/-- A number is whole when it has neither fraction nor exponent and fits a word. -/
def number (negative : Bool) (whole fraction : List Char) (exponent : Option Int) : Json :=
  let magnitude := natOfDigits whole
  let value : Int := if negative then -(magnitude : Int) else magnitude
  if fraction.isEmpty && exponent.isNone && isWord value && !(negative && magnitude == 0) then
    .int value
  else
    .decimal (Decimal.normalize
      ⟨negative, natOfDigits (whole ++ fraction), exponent.getD 0 - fraction.length⟩)

/-- A number: no leading zero, and digits on both sides of a point. -/
def readNumber (cs : List Char) : Option (Json × List Char) := do
  let (negative, cs) := match cs with
    | '-' :: cs => (true, cs)
    | cs => (false, cs)
  let (whole, cs) ← readDigits cs
  if whole.head? = some '0' ∧ whole.length ≠ 1 then none
  let (fraction, cs) ← match cs with
    | '.' :: cs => readDigits cs
    | cs => some ([], cs)
  let (exponent, cs) ← readExponent cs
  some (number negative whole fraction exponent, cs)

/-- Items up to the closing character; each takes one of the first list. -/
def readSequence {β : Type} (close : Char) (item : Read β) : List Char → Read (List β)
  | [], _ => none
  | _ :: bound, cs => do
    let (x, cs) ← item (skipBlanks cs)
    match skipBlanks cs with
    | c :: cs =>
      if c = close then some ([x], cs)
      else if c = ',' then
        let (xs, cs) ← readSequence close item bound cs
        some (x :: xs, cs)
      else none
    | [] => none

/-- An empty sequence, or items separated by commas. No item is empty, so the
characters at hand bound their number. -/
def readUntil {β : Type} (close : Char) (item : Read β) (cs : List Char) :
    Option (List β × List Char) :=
  match skipBlanks cs with
  | [] => none
  | c :: rest => if c = close then some ([], rest) else readSequence close item cs (c :: rest)

def readMember (value : Read Json) : Read (String × Json)
  | '"' :: cs => do
    let (key, cs) ← readString cs
    let cs ← expect [':'] (skipBlanks cs)
    let (v, cs) ← value (skipBlanks cs)
    some ((key, v), cs)
  | _ => none

/-- A value that starts at the first character. -/
def read : Nat → Read Json
  | depth, cs =>
    match cs with
    | 'n' :: rest => (expect ['u', 'l', 'l'] rest).map (.null, ·)
    | 't' :: rest => (expect ['r', 'u', 'e'] rest).map (.bool true, ·)
    | 'f' :: rest => (expect ['a', 'l', 's', 'e'] rest).map (.bool false, ·)
    | '"' :: rest => (readString rest).map fun (s, rest) => (.str s, rest)
    | '[' :: rest =>
      match depth with
      | 0 => none
      | depth + 1 => (readUntil ']' (read depth) rest).map fun (items, rest) => (.arr items, rest)
    | '\x7b' :: rest =>
      match depth with
      | 0 => none
      | depth + 1 =>
        (readUntil '\x7d' (readMember (read depth)) rest).map fun (members, rest) => (.obj members, rest)
    | cs => readNumber cs

/-- The value of a whole text whose nesting stays within `depth`. -/
def parseWithin (depth : Nat) (text : String) : Option Json := do
  let (j, rest) ← read depth (skipBlanks text.toList)
  if (skipBlanks rest).isEmpty then some j else none

/-- The value of a whole text; its length bounds its nesting. -/
def parse (text : String) : Option Json := parseWithin text.length text

end KetSim.Json

import KetSim.Decimal.Layout
import KetSim.Json.Basic

/-! # JSON printer

Compact text: no blanks, members in order, characters outside the controls as
they are.
-/
namespace KetSim.Json

/-- The two hexadecimal digits of a byte. -/
def hexByte (n : Nat) : List Char := [Nat.digitChar (n / 16 % 16), Nat.digitChar (n % 16)]

def escapeChar (c : Char) : List Char :=
  match c with
  | '"' => ['\\', '"']
  | '\\' => ['\\', '\\']
  | '\x08' => ['\\', 'b']
  | '\x0c' => ['\\', 'f']
  | '\n' => ['\\', 'n']
  | '\r' => ['\\', 'r']
  | '\t' => ['\\', 't']
  | c => if c.toNat < 0x20 then ['\\', 'u', '0', '0'] ++ hexByte c.toNat else [c]

def printString (s : String) : List Char := '"' :: s.toList.flatMap escapeChar ++ ['"']

def printInt (n : Int) : List Char :=
  let digits := Nat.toDigits 10 n.natAbs
  if n < 0 then '-' :: digits else digits

mutual

/-- Puts the text of a value in front of other text. -/
def printBefore : Json → List Char → List Char
  | .null, rest => 'n' :: 'u' :: 'l' :: 'l' :: rest
  | .bool true, rest => 't' :: 'r' :: 'u' :: 'e' :: rest
  | .bool false, rest => 'f' :: 'a' :: 'l' :: 's' :: 'e' :: rest
  | .int n, rest => printInt n ++ rest
  | .decimal d, rest => Decimal.Layout.data.write d ++ rest
  | .str s, rest => printString s ++ rest
  | .arr items, rest => '[' :: printItems items (']' :: rest)
  | .obj members, rest => '\x7b' :: printMembers members ('\x7d' :: rest)

def printItems : List Json → List Char → List Char
  | [], rest => rest
  | item :: items, rest => item.printBefore (printMoreItems items rest)

def printMoreItems : List Json → List Char → List Char
  | [], rest => rest
  | item :: items, rest => ',' :: item.printBefore (printMoreItems items rest)

def printMember : String × Json → List Char → List Char
  | (key, value), rest => printString key ++ ':' :: value.printBefore rest

def printMembers : List (String × Json) → List Char → List Char
  | [], rest => rest
  | member :: members, rest => printMember member (printMoreMembers members rest)

def printMoreMembers : List (String × Json) → List Char → List Char
  | [], rest => rest
  | member :: members, rest => ',' :: printMember member (printMoreMembers members rest)

end

def print (j : Json) : List Char := j.printBefore []

def text (j : Json) : String := String.ofList j.print

end KetSim.Json

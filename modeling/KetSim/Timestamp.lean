import KetSim.Power
import KetSim.Text.Blank

/-! # Timestamps

Moments of universal time to the nanosecond, over the Gregorian calendar. The
text is a date and a time of day with a zone. Reading takes any zone and is lax
about blanks and digits; writing always uses the zone `Z`.
-/
namespace KetSim

/-- A nanosecond count of at least one billion marks a leap second. -/
structure Timestamp where
  year : Int
  month : Nat
  day : Nat
  hour : Nat
  minute : Nat
  second : Nat
  nanosecond : Nat
  deriving DecidableEq, Repr

namespace Timestamp

/-! ## Calendar -/

def isLeapYear (year : Int) : Bool := year % 4 == 0 && (year % 100 != 0 || year % 400 == 0)

def daysIn (year : Int) (month : Nat) : Nat :=
  if month = 2 then (if isLeapYear year then 29 else 28)
  else if month ∈ [4, 6, 9, 11] then 30
  else 31

def firstYear : Int := -262143

def lastYear : Int := 262142

def nextDay (t : Timestamp) : Timestamp :=
  if t.day < daysIn t.year t.month then { t with day := t.day + 1 }
  else if t.month < 12 then { t with month := t.month + 1, day := 1 }
  else { t with year := t.year + 1, month := 1, day := 1 }

def previousDay (t : Timestamp) : Timestamp :=
  if 1 < t.day then { t with day := t.day - 1 }
  else if 1 < t.month then { t with month := t.month - 1, day := daysIn t.year (t.month - 1) }
  else { t with year := t.year - 1, month := 12, day := 31 }

def isValid (t : Timestamp) : Bool :=
  decide (firstYear ≤ t.year) && decide (t.year ≤ lastYear) && 1 ≤ t.month && t.month ≤ 12 &&
    1 ≤ t.day && t.day ≤ daysIn t.year t.month && t.hour < 24 && t.minute < 60 && t.second < 60

/-- The moment that a clock `minutes` ahead of universal time shows as `t`. -/
def fromZone (t : Timestamp) (minutes : Int) : Timestamp :=
  let clock : Int := 60 * t.hour + t.minute - minutes
  let t := if clock < 0 then t.previousDay else if 1440 ≤ clock then t.nextDay else t
  let clock := (clock % 1440).toNat
  { t with hour := clock / 60, minute := clock % 60 }

/-! ## Writing -/

def padded (width n : Nat) : List Char :=
  let digits := Nat.toDigits 10 n
  List.replicate (width - digits.length) '0' ++ digits

/-- Years of four digits are bare; others carry a sign. -/
def yearText (year : Int) : List Char :=
  let digits := padded 4 year.natAbs
  if year < 0 then '-' :: digits else if year < 10000 then digits else '+' :: digits

/-- The shortest of no, three, six or nine digits. -/
def fractionText (n : Nat) : List Char :=
  if n = 0 then []
  else if n % 1000000 = 0 then '.' :: padded 3 (n / 1000000)
  else if n % 1000 = 0 then '.' :: padded 6 (n / 1000)
  else '.' :: padded 9 n

def text (t : Timestamp) : String :=
  let leap := 1000000000 ≤ t.nanosecond
  let second := if leap then t.second + 1 else t.second
  let fraction := if leap then t.nanosecond - 1000000000 else t.nanosecond
  String.ofList (yearText t.year ++ '-' :: padded 2 t.month ++ '-' :: padded 2 t.day ++
    'T' :: padded 2 t.hour ++ ':' :: padded 2 t.minute ++ ':' :: padded 2 second ++
    fractionText fraction ++ ['Z'])

/-! ## Reading -/

abbrev Read (β : Type) := List Char → Option (β × List Char)

def natOf (digits : List Char) : Nat :=
  digits.foldl (fun n c => 10 * n + (c.toNat - '0'.toNat)) 0

def readDigits (most : Nat) : Read Nat := fun cs =>
  match (cs.take most).takeWhile Char.isDigit with
  | [] => none
  | digits => some (natOf digits, cs.drop digits.length)

def readNumber (most : Nat) : Read Nat := fun cs => readDigits most (Text.trimLeft cs)

/-- A signed year has any number of digits, a bare one at most four. -/
def readYear : Read Int := fun cs =>
  match Text.trimLeft cs with
  | '-' :: rest => (readDigits rest.length rest).map fun (n, rest) => (-(n : Int), rest)
  | '+' :: rest => (readDigits rest.length rest).map fun (n, rest) => ((n : Int), rest)
  | cs => (readDigits 4 cs).map fun (n, rest) => ((n : Int), rest)

def readMark (mark : Char) (cs : List Char) : Option (List Char) :=
  match Text.trimLeft cs with
  | c :: rest => if c = mark then some rest else none
  | [] => none

/-- Nine digits of a fraction; further digits are dropped. -/
def readFraction : Read Nat
  | '.' :: cs =>
    match cs.takeWhile Char.isDigit with
    | [] => none
    | digits =>
      let kept := digits.take 9
      some (natOf kept * 10 ^ (9 - kept.length), cs.dropWhile Char.isDigit)
  | cs => some (0, cs)

def twoDigits : Read Nat
  | a :: b :: rest => if a.isDigit && b.isDigit then some (natOf [a, b], rest) else none
  | _ => none

/-- Minutes ahead of universal time: hours and minutes, with colons or blanks between them. -/
def readOffset : Read Int := fun cs => do
  let (negative, cs) ← match cs with
    | '+' :: rest => some (false, rest)
    | '-' :: rest => some (true, rest)
    | '−' :: rest => some (true, rest)
    | _ => none
  let (hours, cs) ← twoDigits cs
  let (minutes, cs) ← twoDigits (cs.dropWhile fun c => c == ':' || Text.isSpace c)
  if hours < 24 && minutes < 60 then
    let offset : Int := 60 * hours + minutes
    some (if negative then -offset else offset, cs)
  else none

def readZone : Read Int := fun cs =>
  match Text.trimLeft cs with
  | 'Z' :: rest | 'z' :: rest => some (0, rest)
  | a :: b :: c :: rest =>
    if [a, b, c].map Char.toUpper = ['U', 'T', 'C'] then some (0, rest)
    else readOffset (a :: b :: c :: rest)
  | cs => readOffset cs

def readDate : Read (Int × Nat × Nat) := fun cs => do
  let (year, cs) ← readYear cs
  let (month, cs) ← readNumber 2 (← readMark '-' cs)
  let (day, cs) ← readNumber 2 (← readMark '-' cs)
  match cs with
  | 't' :: rest | 'T' :: rest | ' ' :: rest => some ((year, month, day), rest)
  | _ => none

def readTime : Read (Nat × Nat × Nat × Nat) := fun cs => do
  let (hour, cs) ← readNumber 2 cs
  let (minute, cs) ← readNumber 2 (← readMark ':' cs)
  let (second, cs) ← readNumber 2 (← readMark ':' cs)
  let (nanosecond, cs) ← readFraction cs
  some ((hour, minute, second, nanosecond), cs)

/-- The moment of a text; a sixtieth second is a leap second. -/
def parse? (s : String) : Option Timestamp := do
  let ((year, month, day), cs) ← readDate s.toList
  let ((hour, minute, second, nanosecond), cs) ← readTime cs
  let (offset, cs) ← readZone cs
  let t : Timestamp :=
    if second = 60 then ⟨year, month, day, hour, minute, 59, nanosecond + 1000000000⟩
    else ⟨year, month, day, hour, minute, second, nanosecond⟩
  let moment := t.fromZone offset
  if (Text.trimLeft cs).isEmpty && t.isValid && moment.isValid then some moment else none

end Timestamp

end KetSim

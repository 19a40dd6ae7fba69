import KetSim.Power

/-! # Content hash

A 64-bit digest of a text of more than sixteen bytes. Two words at a time are
mixed into a pair of state words by a full 128-bit product; the last sixteen
bytes are always absorbed once more.
-/
namespace KetSim.ContentHash

/-- Eight bytes from a position on, the first one least significant. -/
def word (bytes : ByteArray) (start : Nat) : UInt64 :=
  (List.range 8).foldl
    (fun w i => w ||| ((bytes[start + i]?.getD 0).toUInt64 <<< (8 * i).toUInt64)) 0

/-- The two halves of the product, combined. -/
def mix (x y : UInt64) : UInt64 :=
  let product := x.toNat * y.toNat
  (product % 2 ^ 64).toUInt64 ^^^ (product / 2 ^ 64).toUInt64

abbrev State := UInt64 × UInt64

def start : State := (0x243f6a8885a308d3, 0x13198a2e03707344)

def absorb (bytes : ByteArray) (s : State) (block : Nat) : State :=
  let x := word bytes (16 * block)
  let y := word bytes (16 * block + 8)
  (s.2, mix (s.1 ^^^ x) (0xa4093822299f31d0 ^^^ y))

def rotate (x : UInt64) : UInt64 := (x <<< 26) ||| (x >>> 38)

def ofBytes (bytes : ByteArray) : UInt64 :=
  let n := bytes.size
  let s := (List.range ((n - 1) / 16)).foldl (absorb bytes) start
  let digest := mix (s.1 ^^^ word bytes (n - 16)) (s.2 ^^^ word bytes (n - 8)) ^^^ n.toUInt64
  rotate (digest * 0xf1357aea2e62a9c5)

def ofText (text : String) : UInt64 := ofBytes text.toUTF8

def hex (x : UInt64) : String :=
  let digits := Nat.toDigits 16 x.toNat
  String.ofList (List.replicate (16 - digits.length) '0' ++ digits)

end KetSim.ContentHash

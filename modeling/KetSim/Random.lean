import KetSim.Power

/-! # Random draws

A stream cipher in counter mode as a source of seeded draws: twelve rounds on a
block of sixteen words. A seed is stretched to the key by a linear congruential
generator whose states are permuted on output.
-/
namespace KetSim.Random

abbrev Block := Array UInt32

/-- Rotates a word to the left by `n` bits, for `n` from 1 to 31. -/
def rotateLeft (x : UInt32) (n : UInt32) : UInt32 := (x <<< n) ||| (x >>> (32 - n))

def rotateRight (x : UInt32) (n : UInt32) : UInt32 := (x >>> (n % 32)) ||| (x <<< ((32 - n) % 32))

/-! ## Seeds -/

def nextState (s : UInt64) : UInt64 := s * 6364136223846793005 + 11634580027462260723

/-- The word that a state of the seed generator puts out. -/
def seedWord (s : UInt64) : UInt32 :=
  rotateRight (((s >>> 18) ^^^ s) >>> 27).toUInt32 (s >>> 59).toUInt32

def seedWords : Nat → UInt64 → List UInt32
  | 0, _ => []
  | n + 1, s =>
    let s := nextState s
    seedWord s :: seedWords n s

@[simp] theorem length_seedWords (n : Nat) (s : UInt64) : (seedWords n s).length = n := by
  induction n generalizing s with
  | zero => rfl
  | succ n ih => simp [seedWords, ih]

def key (seed : UInt64) : List UInt32 := seedWords 8 seed

/-! ## Blocks -/

def quarterRound (b : Block) (i j k l : Nat) : Block :=
  let w (n : Nat) : UInt32 := b.getD n 0
  let a1 := w i + w j
  let d1 := rotateLeft (w l ^^^ a1) 16
  let c1 := w k + d1
  let b1 := rotateLeft (w j ^^^ c1) 12
  let a2 := a1 + b1
  let d2 := rotateLeft (d1 ^^^ a2) 8
  let c2 := c1 + d2
  let b2 := rotateLeft (b1 ^^^ c2) 7
  (((b.setIfInBounds i a2).setIfInBounds j b2).setIfInBounds k c2).setIfInBounds l d2

def doubleRound (b : Block) : Block :=
  [(0, 4, 8, 12), (1, 5, 9, 13), (2, 6, 10, 14), (3, 7, 11, 15),
    (0, 5, 10, 15), (1, 6, 11, 12), (2, 7, 8, 13), (3, 4, 9, 14)].foldl
    (fun b (i, j, k, l) => quarterRound b i j k l) b

def initial (key : List UInt32) (counter : UInt64) : Block :=
  let constants : List UInt32 := [0x61707865, 0x3320646e, 0x79622d32, 0x6b206574]
  let number : List UInt32 := [counter.toUInt32, (counter >>> 32).toUInt32, 0, 0]
  (constants ++ key ++ number).toArray

def block (key : List UInt32) (counter : UInt64) : Block :=
  let input := initial key counter
  Array.zipWith (· + ·) ((List.range 6).foldl (fun b _ => doubleRound b) input) input

/-- The eight double words of a block, low halves first. -/
def doubleWords (b : Block) : List UInt64 :=
  (List.range 8).map fun i =>
    (b.getD (2 * i) 0).toUInt64 ||| ((b.getD (2 * i + 1) 0).toUInt64 <<< 32)

def words (seed : UInt64) (count : Nat) : List UInt64 :=
  let keyWords := key seed
  let blocks := (List.range ((count + 7) / 8)).map fun k => block keyWords k.toUInt64
  (blocks.flatMap doubleWords).take count

/-- The first `count` draws of a seed: numerators of fractions of `2 ^ 53`. -/
def draws (seed : UInt64) (count : Nat) : List Nat :=
  (words seed count).map fun (w : UInt64) => (w >>> 11).toNat

@[simp] theorem length_doubleWords (b : Block) : (doubleWords b).length = 8 := by
  simp [doubleWords]

@[simp] theorem length_words (seed : UInt64) (count : Nat) : (words seed count).length = count := by
  simp only [words, List.length_take, List.length_flatMap, List.map_map, Function.comp_def,
    length_doubleWords, List.map_const', List.sum_replicate_nat, List.length_range]
  omega

@[simp] theorem length_draws (seed : UInt64) (count : Nat) : (draws seed count).length = count := by
  simp [draws]

theorem lt_of_mem_draws {seed : UInt64} {count d : Nat} (h : d ∈ draws seed count) :
    d < 2 ^ 53 := by
  simp only [draws, List.mem_map] at h
  obtain ⟨w, -, rfl⟩ := h
  have := w.toNat_lt
  simp only [UInt64.toNat_shiftRight]
  simp [Nat.shiftRight_eq_div_pow]
  omega

end KetSim.Random

import KetSim.Text.Ranges

/-! # Blanks

The characters that count as white space.
-/
namespace KetSim.Text

def spaceRanges : Ranges := #[
  (0x9, 0xd), (0x20, 0x20), (0x85, 0x85), (0xa0, 0xa0), (0x1680, 0x1680), (0x2000, 0x200a),
  (0x2028, 0x2029), (0x202f, 0x202f), (0x205f, 0x205f), (0x3000, 0x3000)]

theorem ascends_spaceRanges : spaceRanges.ascends = true := by decide

def isSpace (c : Char) : Bool := spaceRanges.contains c

def trimLeft (cs : List Char) : List Char := cs.dropWhile isSpace

end KetSim.Text

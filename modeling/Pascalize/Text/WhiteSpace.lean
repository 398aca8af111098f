import Pascalize.Text.Ranges

/-!
# White space

The White_Space property of Unicode, and trimming a text at both ends by it.
-/

namespace Pascalize.Text

/-- The code points with the White_Space property. -/
def whiteSpaceRanges : List (Nat × Nat) :=
  [(0x9, 0xd), (0x20, 0x20), (0x85, 0x85), (0xa0, 0xa0), (0x1680, 0x1680), (0x2000, 0x200a),
   (0x2028, 0x2029), (0x202f, 0x202f), (0x205f, 0x205f), (0x3000, 0x3000)]

/-- Whether a character is white space. -/
def isWhiteSpace (c : Char) : Bool :=
  inRanges whiteSpaceRanges c.toNat

/-- A text without the white space at its two ends. -/
def trim (text : String) : String :=
  let fromStart := text.toList.dropWhile isWhiteSpace
  String.ofList (fromStart.reverse.dropWhile isWhiteSpace).reverse

end Pascalize.Text

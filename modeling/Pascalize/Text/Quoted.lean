import Pascalize.Text.Unprintable
import Pascalize.Text.Extending
import Pascalize.Text.Ignorable

/-!
# Quoted text

A text between double quotes on one line, in which every character can be told apart: quotes,
backslashes and the common controls have escapes of two characters, and characters that are
unprintable, show nothing or attach to their neighbour are written by code point.
-/

namespace Pascalize.Text

/-- A code point in lower-case hexadecimal between braces. -/
def codePointEscape (c : Char) : List Char :=
  '\\' :: 'u' :: '\x7b' :: (Nat.toDigits 16 c.toNat ++ ['\x7d'])

/-- The halfwidth sound marks of Katakana. They extend the letter before them, but they are letters
themselves and take up a place of their own. -/
def isHalfwidthSoundMark (c : Char) : Bool :=
  c == '\uff9e' || c == '\uff9f'

/-- Whether a character is written by its code point. The characters from the space to the tilde
are not, which the test settles first. -/
def needsCodePoint (c : Char) : Bool :=
  !(decide (0x20 ≤ c.toNat) && decide (c.toNat ≤ 0x7e)) &&
    (isUnprintable c || isIgnorable c || (isExtending c && !isHalfwidthSoundMark c))

/-- How a character is written inside quotes. -/
def escape (c : Char) : List Char :=
  match c with
  | '\x00' => ['\\', '0']
  | '\t' => ['\\', 't']
  | '\r' => ['\\', 'r']
  | '\n' => ['\\', 'n']
  | '\\' => ['\\', '\\']
  | '\x22' => ['\\', '\x22']
  | c => if needsCodePoint c then codePointEscape c else [c]

/-- A text in double quotes. -/
def quoted (text : String) : String :=
  "\"" ++ String.ofList (text.toList.flatMap escape) ++ "\""

end Pascalize.Text

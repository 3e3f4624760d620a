import Scriptlet.Text.GraphemeExtend
import Scriptlet.Text.NonGraphic

/-!
# Quoted text

A text between double quotes in which every character can be seen: quotes and backslashes are
escaped, and so is what has no visible form of its own.
-/

namespace Scriptlet

namespace Quoted

/-- Code points with the property Default Ignorable, which stand for nothing to be drawn. -/
def defaultIgnorable : CharTable :=
  [(0xAD, 0xAD), (0x34F, 0x34F), (0x61C, 0x61C), (0x115F, 0x1160), (0x17B4, 0x17B5),
    (0x180B, 0x180F), (0x200B, 0x200F), (0x202A, 0x202E), (0x2060, 0x206F), (0x3164, 0x3164),
    (0xFE00, 0xFE0F), (0xFEFF, 0xFEFF), (0xFFA0, 0xFFA0), (0xFFF0, 0xFFF8), (0x1BCA0, 0x1BCA3),
    (0x1D173, 0x1D17A), (0xE0000, 0xE0FFF)]

/-- Whether a character is shown as itself: it has a glyph, stands alone, and is not ignored. -/
def isVisible (c : Char) : Bool :=
  !(CharTable.nonGraphic.contains c || CharTable.graphemeExtend.contains c ||
    defaultIgnorable.contains c)

/-- A character as it stands between the quotes. -/
def escape (c : Char) : List Char :=
  if c = '"' ∨ c = '\\' then ['\\', c]
  else if c = '\t' then ['\\', 't']
  else if c = '\n' then ['\\', 'n']
  else if c = '\r' then ['\\', 'r']
  else if c.toNat = 0 then ['\\', '0']
  else if isVisible c then [c]
  else '\\' :: 'u' :: '\x7b' :: Nat.toDigits 16 c.toNat ++ ['\x7d']

end Quoted

/-- A text between double quotes. -/
def quoted (s : String) : String := .ofList ('"' :: s.toList.flatMap Quoted.escape ++ ['"'])

end Scriptlet

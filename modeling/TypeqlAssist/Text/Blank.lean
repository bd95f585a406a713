import TypeqlAssist.Text.Bytes

/-!
# Blank characters

The blanks of running text are the characters with the Unicode property White_Space, more than
the ones that separate tokens.
-/

namespace TypeqlAssist

namespace Text

/-- A character with the property White_Space. -/
def isBlankChar (c : Char) : Bool :=
  let n := c.toNat
  (0x09 ≤ n && n ≤ 0x0D) || n == 0x20 || n == 0x85 || n == 0xA0 || n == 0x1680 ||
    (0x2000 ≤ n && n ≤ 0x200A) || n == 0x2028 || n == 0x2029 || n == 0x202F || n == 0x205F ||
    n == 0x3000

/-- A text without its leading blanks. -/
def trimStart (text : Text) : Text :=
  text.dropWhile isBlankChar

/-- A text without its trailing blanks. -/
def trimEnd (text : Text) : Text :=
  (text.reverse.dropWhile isBlankChar).reverse

/-- A text without the blanks around it. -/
def trim (text : Text) : Text :=
  trimEnd (trimStart text)

/-- Nothing but blanks. -/
def isBlank (text : Text) : Bool :=
  text.all isBlankChar

/-- The trailing part of a text without blanks in it. -/
def lastWord (text : Text) : Text :=
  (text.reverse.takeWhile fun c => !isBlankChar c).reverse

end Text

end TypeqlAssist

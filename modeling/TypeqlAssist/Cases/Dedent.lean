import TypeqlAssist.Text.Blank
import TypeqlAssist.Text.Lines

/-!
# Indented texts

The text of a field is indented below the name of the field. The indentation that all lines share
is not part of it, and neither are blank lines around it.
-/

namespace TypeqlAssist

namespace Cases

/-- The bytes of the blanks that a line starts with. -/
def indentOf (line : Text) : Nat :=
  Text.byteSize (line.takeWhile Text.isBlankChar)

/-- The least indentation of the lines that are not blank, or none. -/
def commonIndent (lines : List Text) : Nat :=
  (((lines.filter fun l => !Text.isBlank l).map indentOf).min?).getD 0

/-- A line without its first `n` bytes, or without its leading blanks if these cannot be cut off. -/
def cutIndent (n : Nat) (line : Text) : Text :=
  (line.dropBytes? n).getD (Text.trimStart line)

/-- Lines without the blank ones at both ends. -/
def trimBlankLines (lines : List Text) : List Text :=
  ((lines.dropWhile Text.isBlank).reverse.dropWhile Text.isBlank).reverse

/-- The text of indented lines. -/
def dedent (lines : List Text) : Text :=
  Text.joinLines (trimBlankLines (lines.map (cutIndent (commonIndent lines))))

end Cases

end TypeqlAssist

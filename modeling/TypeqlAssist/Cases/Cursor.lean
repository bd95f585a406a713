import TypeqlAssist.Text.Bytes

/-!
# The cursor in a case

The first `|` of an input stands for the cursor and is no part of the document.
-/

namespace TypeqlAssist

namespace Cases

/-- The offset of the cursor. -/
def cursorIn? (input : Text) : Option Nat :=
  if input.contains '|' then some (Text.byteSize (input.takeWhile (· != '|'))) else none

/-- The input without the cursor. -/
def withoutCursor (input : Text) : Text :=
  input.takeWhile (· != '|') ++ (input.dropWhile (· != '|')).drop 1

/-- The document of an input and the offset of the cursor in it. -/
def splitCursor? (input : Text) : Option (Text × Nat) :=
  (cursorIn? input).map fun pos => (withoutCursor input, pos)

end Cases

end TypeqlAssist

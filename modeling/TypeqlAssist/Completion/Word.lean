import TypeqlAssist.Token.Scanner

/-!
# The word at a cursor

A candidate replaces the word that ends at the cursor, and stays valid while more characters of a
word are typed.
-/

namespace TypeqlAssist

namespace Completion

/-- The characters of a word: those of identifiers, and the sign of a variable. -/
def isWordChar (c : Char) : Bool :=
  Lexer.isIdentifierChar c || c == '$'

/--
The offset at which the word that ends at `pos` starts. A cursor inside a character stands after
no word, since a character of several bytes belongs to none.
-/
def wordStart (text : Text) (pos : Nat) : Nat :=
  let cursor := min pos text.byteSize
  match text.takeBytes? cursor with
  | some before => cursor - Text.byteSize (before.reverse.takeWhile isWordChar)
  | none => cursor

/-- The pattern that tells a client whether typed text continues a word. -/
def continuationPattern : String :=
  "^[A-Za-z0-9_\\-$]*$"

/-- The text continues a word. -/
def isContinuation (typed : Text) : Bool :=
  typed.all isWordChar

end Completion

namespace Scanner

/-- The offset at which the word that ends at `pos` starts: one past the last byte of no word. -/
def wordStart (bs : List UInt8) (pos : Nat) : Nat :=
  let before := bs.take pos
  before.length - run (ascii Completion.isWordChar) before.reverse

end Scanner

end TypeqlAssist

import TypeqlAssist.Text.Bytes

/-!
# Editor positions

An editor counts lines from zero and, within a line, UTF-16 units; offsets count bytes. A
character beyond the first 65536 takes two units. Editors keep lines and columns in 32 bits, while
the numbers here are unbounded: the two agree on texts of fewer than 2^32 bytes, where no line and
no column of an offset is larger than the text.
-/

namespace TypeqlAssist

namespace Editor

/-- A place in a text by line and UTF-16 column, which 32 bits hold in a text below 2^32 bytes. -/
structure Position where
  line : Nat
  character : Nat
  deriving DecidableEq, Repr, Inhabited

/-- The part of a text between two places. -/
structure Range where
  start : Position
  stop : Position
  deriving DecidableEq, Repr, Inhabited

/-- The number of UTF-16 units of a character. -/
def charUnits (c : Char) : Nat :=
  if c.toNat < 0x10000 then 1 else 2

/-- The number of UTF-16 units of a text. -/
def units : Text → Nat
  | [] => 0
  | c :: cs => charUnits c + units cs

/-- The content of the first line: up to the line feed, without the carriage returns before it. -/
def lineContent (text : Text) : Text :=
  ((text.takeWhile (· != '\n')).reverse.dropWhile (· == '\r')).reverse

/-- The bytes of a line in front of the first character at or behind a column, or all of them. -/
def columnOffset : (column : Nat) → Text → Nat
  | 0, _ => 0
  | _ + 1, [] => 0
  | n + 1, c :: cs => c.utf8Size + columnOffset (n + 1 - charUnits c) cs

/-- What stands after the first line feed, with the bytes in front of it. -/
def afterLine? : Text → Option (Nat × Text)
  | [] => none
  | c :: cs =>
    if c == '\n' then some (c.utf8Size, cs)
    else (afterLine? cs).map fun (n, rest) => (c.utf8Size + n, rest)

/-- The offset of a column on a line, counted from the line given; there may be no such line. -/
def offsetOn? : (line column : Nat) → Text → Option Nat
  | 0, column, text => some (columnOffset column (lineContent text))
  | line + 1, column, text =>
    match afterLine? text with
    | none => none
    | some (n, rest) => (offsetOn? line column rest).map (n + ·)

/--
The offset of a position. A column behind the end of its line counts as the end; a line behind
the end of the text has no offset.
-/
def Position.offsetIn? (p : Position) (text : Text) : Option Nat :=
  offsetOn? p.line p.character text

/-- The position behind a text, which starts at a position. -/
def positionAfter (p : Position) : Text → Position
  | [] => p
  | c :: cs =>
    positionAfter (if c == '\n' then ⟨p.line + 1, 0⟩ else ⟨p.line, p.character + charUnits c⟩) cs

/-- The position of an offset, moved back to the character it is in, or to the end of the text. -/
def positionOf (text : Text) (offset : Nat) : Position :=
  positionAfter ⟨0, 0⟩ (text.takeUpTo offset)

/-- The range of a byte span. -/
def rangeOf (text : Text) (start stop : Nat) : Range :=
  ⟨positionOf text start, positionOf text stop⟩

end Editor

end TypeqlAssist

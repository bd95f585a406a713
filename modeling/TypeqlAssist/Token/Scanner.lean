import TypeqlAssist.Token.Lexer

/-!
# Tokens of bytes

A document arrives as bytes, and its tokens are found by looking at them one at a time. The tests
are tests of ASCII characters, which no byte of a longer character passes. What runs over longer
characters does not decode them: a comment and a string go on byte by byte, an escape takes one byte
along, whatever it belongs to, and an unknown character is as long as its first byte says.
-/

namespace TypeqlAssist

/-- The bytes of a text in UTF-8. -/
def Text.bytes (text : Text) : List UInt8 :=
  text.flatMap String.utf8EncodeChar

namespace Scanner

open Lexer (isBlank isIdentifierChar apostrophe symbolKind)

/-- A test of ASCII characters, made on a byte. -/
def ascii (p : Char → Bool) (b : UInt8) : Bool :=
  b < 0x80 && p (Char.ofUInt8 b)

/-- The byte is the ASCII character. -/
def is (c : Char) : UInt8 → Bool :=
  ascii (· == c)

mutual

/-- The number of leading bytes that are blanks or comments. -/
def skip : List UInt8 → Nat
  | [] => 0
  | b :: bs =>
    if ascii isBlank b then skip bs + 1
    else if is '#' b then skipComment bs + 1
    else 0

/-- The same inside a comment, which ends before the line feed. -/
def skipComment : List UInt8 → Nat
  | [] => 0
  | b :: bs => if is '\n' b then skip bs + 1 else skipComment bs + 1

end

/-- The number of leading bytes that pass a test. -/
def run (p : UInt8 → Bool) (bs : List UInt8) : Nat :=
  (bs.takeWhile p).length

/-- The kind and length of a word; `isa` and `sub` may carry an exclamation mark. -/
def word (bs : List UInt8) : Kind × Nat :=
  let plain := run (ascii isIdentifierChar) bs
  let bang := bs[plain]?.any (is '!') &&
    (bs.take plain == Text.bytes ['i', 's', 'a'] || bs.take plain == Text.bytes ['s', 'u', 'b'])
  let length := if bang then plain + 1 else plain
  let spelling := (String.fromUTF8? (bs.take length).toByteArray).getD ""
  ((Kind.keyword? spelling).getD .label, length)

/-- The length of a number: digits, and a point only if a digit follows it. -/
def number (bs : List UInt8) : Nat :=
  let whole := run (ascii Char.isDigit) bs
  if bs[whole]?.any (is '.') && bs[whole + 1]?.any (ascii Char.isDigit) then
    whole + 1 + run (ascii Char.isDigit) (bs.drop (whole + 1))
  else whole

/--
How far a string goes after its opening quote. A backslash takes the byte behind it along; at the
end of the document there is none, and the string goes too far.
-/
def string (quote : Char) : List UInt8 → Nat
  | [] => 0
  | [b] => if is '\\' b then 2 else if is '\n' b then 0 else 1
  | b :: d :: bs =>
    if is '\\' b then string quote bs + 2
    else if is '\n' b then 0
    else if is quote b then 1
    else string quote (d :: bs) + 1

/-- The length of a character of which the first byte is known. -/
def widthOf (b : UInt8) : Nat :=
  if 0xF0 ≤ b then 4
  else if 0xE0 ≤ b then 3
  else if 0xC0 ≤ b then 2
  else 1

/-- The kind and length of a symbol, the longer one of two that fit. -/
def symbol (b : UInt8) (bs : List UInt8) : Kind × Nat :=
  let next (c : Char) := bs.head?.any (is c)
  if is '=' b then if next '=' then (.operator, 2) else (.assign, 1)
  else if is '-' b && next '>' then (.arrow, 2)
  else if is '<' b || is '>' b then (.operator, if next '=' then 2 else 1)
  else if is '!' b then if next '=' then (.operator, 2) else (.error, 1)
  else (symbolKind (Char.ofUInt8 b), widthOf b)

/-- The kind and length of the first token of the bytes `b :: bs`, which start with no trivia. -/
def scan (b : UInt8) (bs : List UInt8) : Kind × Nat :=
  if is '$' b then (.var, run (ascii isIdentifierChar) bs + 1)
  else if ascii Char.isAlpha b || is '_' b then word (b :: bs)
  else if ascii Char.isDigit b then (.numberLiteral, number (b :: bs))
  else if is '"' b then (.stringLiteral, min (string '"' bs + 1) (bs.length + 1))
  else if is apostrophe b then (.stringLiteral, min (string apostrophe bs + 1) (bs.length + 1))
  else symbol b bs

/-- A run has a byte if the first one passes its test. -/
theorem run_pos {p : UInt8 → Bool} {b : UInt8} (h : p b = true) (bs : List UInt8) :
    0 < run p (b :: bs) := by
  rw [run, List.takeWhile_cons_of_pos h]
  exact Nat.succ_pos _

/-- A word has a byte. -/
theorem word_pos {b : UInt8} (h : ascii isIdentifierChar b = true) (bs : List UInt8) :
    0 < (word (b :: bs)).2 := by
  have pos := run_pos h bs
  simp only [word]
  split
  · exact Nat.succ_pos _
  · exact pos

/-- A number has a byte. -/
theorem number_pos {b : UInt8} (h : ascii Char.isDigit b = true) (bs : List UInt8) :
    0 < number (b :: bs) := by
  have pos := run_pos h bs
  simp only [number]
  split
  · omega
  · exact pos

/-- A symbol has a byte. -/
theorem symbol_pos (b : UInt8) (bs : List UInt8) : 0 < (symbol b bs).2 := by
  have wide : 0 < widthOf b := by
    unfold widthOf
    repeat' split
    all_goals decide
  simp only [symbol]
  repeat' split
  all_goals first | exact wide | decide

/-- The letters that start a word may stand in it. -/
theorem ascii_identifier {b : UInt8} (h : (ascii Char.isAlpha b || is '_' b) = true) :
    ascii isIdentifierChar b = true := by
  simp only [is, ascii, Bool.or_eq_true, Bool.and_eq_true] at h ⊢
  rcases h with ⟨low, letter⟩ | ⟨low, underscore⟩
  · exact ⟨low, by simp [isIdentifierChar, Char.isAlphanum, letter]⟩
  · exact ⟨low, by simp [isIdentifierChar, underscore]⟩

/-- Every token has a byte, so the scanner goes on. -/
theorem scan_pos (b : UInt8) (bs : List UInt8) : 0 < (scan b bs).2 := by
  unfold scan
  split
  · exact Nat.succ_pos _
  split
  next h => exact word_pos (ascii_identifier h) bs
  split
  next h => exact number_pos h bs
  split
  · exact Nat.lt_min.mpr ⟨Nat.succ_pos _, Nat.succ_pos _⟩
  split
  · exact Nat.lt_min.mpr ⟨Nat.succ_pos _, Nat.succ_pos _⟩
  · exact symbol_pos b bs

/-- The tokens of bytes of which the first stands at `pos`. -/
def tokensFrom (pos : Nat) (bs : List UInt8) : List Token :=
  match _behind : bs.drop (skip bs) with
  | [] => []
  | b :: rest =>
    let start := pos + skip bs
    let stop := start + (scan b rest).2
    ⟨(scan b rest).1, start, stop⟩ :: tokensFrom stop ((b :: rest).drop (scan b rest).2)
termination_by bs.length
decreasing_by
  have pos := scan_pos b rest
  have length := congrArg List.length _behind
  rw [List.length_drop, List.length_cons] at length
  rw [List.length_drop, List.length_cons]
  omega

/-- The tokens of a document, in order. -/
def tokenize (bs : List UInt8) : List Token :=
  tokensFrom 0 bs

end Scanner

end TypeqlAssist

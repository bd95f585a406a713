import TypeqlAssist.Text.Bytes
import TypeqlAssist.Token

/-!
# The tokens of a text

Blanks and `#` comments separate tokens and belong to none. Everything else is covered: a
character that fits no token is an `error` token of its own. The first token of a text is
described by its kind and its number of characters (`Lexer.measure`), so what follows it is a
`drop` of the text and nothing can be lost.
-/

namespace TypeqlAssist

namespace Lexer

/-- The blanks between tokens: space, tab, line feed, form feed and carriage return. -/
def isBlank (c : Char) : Bool :=
  c == ' ' || c == '\t' || c == '\n' || c == '\x0c' || c == '\r'

/-- The characters that may follow the first character of an identifier. -/
def isIdentifierChar (c : Char) : Bool :=
  c.isAlphanum || c == '_' || c == '-'

/-- The character that opens and closes a string, beside the double quote. -/
def apostrophe : Char := Char.ofNat 39

mutual

/-- The number of leading characters that are blanks or comments. -/
def triviaLength : Text → Nat
  | [] => 0
  | c :: cs =>
    if isBlank c then triviaLength cs + 1
    else if c == '#' then commentLength cs + 1
    else 0

/-- The same inside a comment, which ends before the line feed. -/
def commentLength : Text → Nat
  | [] => 0
  | c :: cs => if c == '\n' then triviaLength cs + 1 else commentLength cs + 1

end

/-- The number of leading characters that satisfy a test. -/
def runLength (p : Char → Bool) : Text → Nat
  | [] => 0
  | c :: cs => if p c then runLength p cs + 1 else 0

/--
The number of characters of a string after its opening quote. A backslash takes the character
after it along; an unfinished string ends before the line feed.
-/
def stringLength (quote : Char) : Text → Nat
  | [] => 0
  | [c] => if c == '\n' then 0 else 1
  | c :: d :: cs =>
    if c == '\\' then stringLength quote cs + 2
    else if c == '\n' then 0
    else if c == quote then 1
    else stringLength quote (d :: cs) + 1

/-- The number of characters of a number: digits, and a point only if a digit follows it. -/
def numberLength (cs : Text) : Nat :=
  let whole := runLength Char.isDigit cs
  match cs.drop whole with
  | '.' :: d :: ds => if d.isDigit then whole + 2 + runLength Char.isDigit ds else whole
  | _ => whole

/-- The number of characters of a word; `isa` and `sub` may carry an exclamation mark. -/
def wordLength (cs : Text) : Nat :=
  let plain := runLength isIdentifierChar cs
  let word := cs.take plain
  if (cs.drop plain).head? == some '!' && (word == ['i', 's', 'a'] || word == ['s', 'u', 'b']) then
    plain + 1
  else plain

/-- The kind of a word: its keyword, or a label. -/
def wordKind (word : Text) : Kind :=
  (Kind.keyword? (String.ofList word)).getD .label

/-- The kind of a symbol of one character. -/
def symbolKind (c : Char) : Kind :=
  match c with
  | ',' => .comma
  | ';' => .semicolon
  | ':' => .colon
  | '(' => .lparen
  | ')' => .rparen
  | '{' => .lbrace
  | '}' => .rbrace
  | '=' => .assign
  | '<' | '>' | '+' | '-' | '*' | '/' | '%' | '^' => .operator
  | _ => .error

/-- The kind and length of a symbol, the longer one of two that fit. -/
def measureSymbol (c : Char) (cs : Text) : Kind × Nat :=
  match c, cs.head? with
  | '=', some '=' | '<', some '=' | '>', some '=' | '!', some '=' => (.operator, 2)
  | '-', some '>' => (.arrow, 2)
  | _, _ => (symbolKind c, 1)

/-- The kind and length of the first token of the text `c :: cs`, which starts with no trivia. -/
def measure (c : Char) (cs : Text) : Kind × Nat :=
  if c == '$' then (.var, runLength isIdentifierChar cs + 1)
  else if c.isAlpha || c == '_' then
    let length := wordLength (c :: cs)
    (wordKind ((c :: cs).take length), length)
  else if c.isDigit then (.numberLiteral, numberLength (c :: cs))
  else if c == '"' || c == apostrophe then (.stringLiteral, stringLength c cs + 1)
  else measureSymbol c cs

/-- The tokens of a text that stands at byte `offset`, at most `fuel` of them. -/
def tokensFrom : (fuel offset : Nat) → Text → List Token
  | 0, _, _ => []
  | fuel + 1, offset, text =>
    let gap := text.take (triviaLength text)
    let start := offset + Text.byteSize gap
    match text.drop (triviaLength text) with
    | [] => []
    | c :: cs =>
      let (kind, length) := measure c cs
      let stop := start + Text.byteSize ((c :: cs).take length)
      ⟨kind, start, stop⟩ :: tokensFrom fuel stop ((c :: cs).drop length)

end Lexer

/-- The tokens of a text, in order. -/
def tokenize (text : Text) : List Token :=
  Lexer.tokensFrom text.length 0 text

end TypeqlAssist

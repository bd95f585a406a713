import TypeqlAssist.Text.Bytes

/-!
# Faults of a document

A fault is the cause of a syntax error with the span it concerns. The message is written from the
cause and the text in one place.
-/

namespace TypeqlAssist

namespace Grammar

/-- What a rule needs and does not find. -/
inductive Wanted where
  | definition | pattern | constraint | typeRef | attributeType | rolePlayer | var | expression
  | number | typeLabel | functionName
  | returnKeyword | arrow | assign | semicolon | colon | openBrace | closeBrace
  | openParen | closeParen
  deriving DecidableEq, Repr

/-- How a message speaks of what is wanted. -/
def Wanted.text : Wanted → String
  | definition => "a definition"
  | pattern => "a pattern"
  | constraint => "a constraint"
  | typeRef => "a type"
  | attributeType => "an attribute"
  | rolePlayer => "a role player"
  | var => "a variable"
  | expression => "an expression"
  | number => "a number"
  | typeLabel => "a type label"
  | functionName => "a function name"
  | returnKeyword => "'return'"
  | arrow => "'->'"
  | assign => "'='"
  | semicolon => "';'"
  | colon => "':'"
  | openBrace => "'\x7b'"
  | closeBrace => "'\x7d'"
  | openParen => "'('"
  | closeParen => "')'"

/-- The number of blocks and expressions that may be nested in each other. -/
def maxNesting : Nat := 256

/-- Why a part of a document is not well formed. -/
inductive Cause where
  /-- Something required is absent. -/
  | missing (wanted : Wanted)
  /-- Input that no rule takes. -/
  | unexpected
  /-- Input below the last level of nesting. -/
  | tooDeep
  deriving DecidableEq, Repr

/-- A cause with the bytes it concerns. -/
structure Fault where
  cause : Cause
  start : Nat
  stop : Nat
  deriving DecidableEq, Repr

/-- The message of a fault in a text. -/
def Fault.message (f : Fault) (text : Text) : String :=
  match f.cause with
  | .missing wanted => "expected " ++ wanted.text
  | .unexpected => "unexpected input '" ++ String.ofList (text.slice f.start f.stop) ++ "'"
  | .tooDeep => "nesting deeper than " ++ toString maxNesting ++ " levels"

end Grammar

end TypeqlAssist

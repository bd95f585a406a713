import TypeqlAssist.Document
import TypeqlAssist.Editor.Position
import TypeqlAssist.Text.Blank

/-!
# Diagnostics

Every syntax error of a document is shown to the editor. Unexpected input is marked where it
stands. Missing input has no width, so the word in front of the gap is marked, if there is one.
-/

namespace TypeqlAssist

namespace Editor

/-- What a diagnostic is about. -/
inductive DiagnosticCode where
  | unexpectedInput
  | missingInput
  deriving DecidableEq, Repr, Inhabited

/-- The stable spelling of a code. -/
def DiagnosticCode.name : DiagnosticCode → String
  | unexpectedInput => "SYNTAX-001"
  | missingInput => "SYNTAX-002"

/-- A message about a part of a text. -/
structure Diagnostic where
  range : Range
  code : DiagnosticCode
  message : String
  deriving DecidableEq, Repr, Inhabited

/-- Every diagnostic is an error. -/
def Diagnostic.severity : Nat := 1

/-- The name of what reports. -/
def Diagnostic.source : String := "typeql"

/-- The span of the last word in front of an offset, or the offset itself if there is none. -/
def wordBefore (text : Text) (pos : Nat) : Nat × Nat :=
  let cursor := min pos text.byteSize
  let before := Text.trimEnd (text.takeUpTo cursor)
  let word := Text.lastWord before
  if word.isEmpty then (cursor, cursor)
  else (before.byteSize - word.byteSize, before.byteSize)

/-- An error without width is about missing input. -/
def codeOf (e : SyntaxError) : DiagnosticCode :=
  if e.start == e.stop then .missingInput else .unexpectedInput

/-- The span that is marked for an error. -/
def markedSpan (text : Text) (e : SyntaxError) : Nat × Nat :=
  match codeOf e with
  | .missingInput => wordBefore text e.start
  | .unexpectedInput => (e.start, e.stop)

/-- The diagnostic of a syntax error. -/
def diagnosticOf (text : Text) (e : SyntaxError) : Diagnostic :=
  let (start, stop) := markedSpan text e
  ⟨rangeOf text start stop, codeOf e, e.message⟩

/-- The diagnostics of a text, one for each syntax error. -/
def diagnostics (text : Text) : List Diagnostic :=
  (parse text).errors.map (diagnosticOf text)

end Editor

end TypeqlAssist

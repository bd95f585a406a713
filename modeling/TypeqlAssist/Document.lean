import TypeqlAssist.Grammar.Productions
import TypeqlAssist.Token.Lexer

/-!
# Parsed documents

`parse` reads any text. Its root spans the whole text, and its errors stand in document order.
-/

namespace TypeqlAssist

/-- A syntax error: a message about a span of the text. -/
structure SyntaxError where
  message : String
  start : Nat
  stop : Nat
  deriving DecidableEq, Repr, Inhabited

/-- The syntax tree of a text with the errors found in it. -/
structure Document where
  tree : SyntaxTree
  errors : List SyntaxError
  deriving Repr, Inhabited

namespace Document

/-- A fault comes before another if it starts earlier, or there and stops no later. -/
def faultLE (a b : Grammar.Fault) : Bool :=
  a.start < b.start || (a.start == b.start && a.stop ≤ b.stop)

/-- The error that reports a fault. -/
def errorOf (text : Text) (f : Grammar.Fault) : SyntaxError :=
  ⟨f.message text, f.start, f.stop⟩

end Document

/-- The document of a text. -/
def parse (text : Text) : Document :=
  let eof := text.byteSize
  let parsed := Grammar.readDocument eof (tokenize text)
  { tree := ⟨.node .source 0 eof parsed.nodes, []⟩
    errors := (parsed.faults.mergeSort Document.faultLE).map (Document.errorOf text) }

/-- The root of the syntax tree of a text. -/
def parseTree (text : Text) : Tree :=
  (parse text).tree.root

end TypeqlAssist

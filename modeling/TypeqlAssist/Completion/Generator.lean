import TypeqlAssist.Completion.KeywordSet
import TypeqlAssist.Distinct
import TypeqlAssist.Tree.Basic

/-!
# Generators

A generator turns a document into candidates. It sees the tree and the text, and neither the
cursor nor what stands before it.
-/

namespace TypeqlAssist

namespace Completion

/-- Where candidates come from. -/
inductive Generator where
  /-- The labels of the document. -/
  | labels
  /-- The variables of the document. -/
  | variableNames (boost : Int)
  /-- A set of words. -/
  | keywords (set : KeywordSet)
  deriving DecidableEq, Repr

/-- The distinct texts of the nodes of a kind, in document order, without the empty one. -/
def textsOfKind (root : Tree) (text : Text) (kind : Kind) : List String :=
  distinct ((((root.preorder.filter (·.kind == kind)).map (·.textIn text))).filter (· != ""))

namespace Generator

/-- The candidates of a document. A `$` alone is a variable still being typed, and not offered. -/
def candidates (g : Generator) (root : Tree) (text : Text) : List Candidate :=
  match g with
  | labels => (textsOfKind root text .label).map fun s => .ofLabel s .typeLabel 0
  | variableNames boost =>
    ((textsOfKind root text .var).filter fun s => 1 < s.utf8ByteSize).map fun s =>
      .ofLabel s .variableName boost
  | keywords set => set.candidates

/-- The candidates of a document, or nothing if there are none to offer. -/
def offer? (g : Generator) (root : Tree) (text : Text) : Option (List Candidate) :=
  let cs := g.candidates root text
  if cs.isEmpty then none else some cs

end Generator

end Completion

end TypeqlAssist

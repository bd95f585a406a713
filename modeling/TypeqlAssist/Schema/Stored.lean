import TypeqlAssist.Schema.Extract
import TypeqlAssist.Tree.Arena

/-!
# The schema of a stored tree

A definition is read three levels down: to its constraints, their type references, and the labels
that these are made of.
-/

namespace TypeqlAssist

namespace Schema

/-- The definitions of a stored tree, in document order. -/
def storedDefinables (s : StoredTree) : Option (List Tree) := do
  let nodes ← s.views 4
  return (nodes.filter fun t => t.kind == .querySchema && isDefining t).flatMap fun q =>
    q.children.filter (·.kind == .definable)

/-- The schema that a stored tree declares. -/
def extractStored (s : StoredTree) (text : Text) : Option Schema := do
  return (← storedDefinables s).foldl (record text) empty

end Schema

end TypeqlAssist

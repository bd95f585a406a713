import TypeqlAssist.Tree.Location

/-!
# Trees in an arena

An arena keeps the nodes of a tree in the order in which they are made. The record of a node names
its parent and its children by their numbers. Looking up a number can fail, and numbers can lead
round in circles: a walk is `none` if it leaves the arena, or if it takes more steps than the arena
has nodes.
-/

namespace TypeqlAssist

/-- The number of a node. -/
abbrev NodeId := UInt32

/-- A node with its links: `index` is its place among the children of the parent. -/
structure Record where
  kind : Kind
  start : Nat
  stop : Nat
  parent : Option NodeId
  index : Nat
  children : List NodeId
  deriving Repr, Inhabited

/-- The node of a record over some children. -/
def Record.node (r : Record) (children : List Tree) : Tree :=
  .node r.kind r.start r.stop children

/-- The records of all nodes, in the order of their numbers. -/
structure Arena where
  records : Array Record
  deriving Repr, Inhabited

namespace Arena

/-- The number of nodes. -/
def size (a : Arena) : Nat :=
  a.records.size

/-- The record of a node. -/
def record? (a : Arena) (id : NodeId) : Option Record :=
  a.records[id.toNat]?

/-! ## Steps -/

/-- The parent of a node, if it has one. -/
def parent? (a : Arena) (id : NodeId) : Option (Option NodeId) := do
  return (← a.record? id).parent

/-- The child of a node with a given index, if there is one. -/
def child? (a : Arena) (id : NodeId) (i : Nat) : Option (Option NodeId) := do
  return (← a.record? id).children[i]?

/-- The child of the parent at an index computed from the node's own. -/
def sibling? (a : Arena) (id : NodeId) (i : Nat → Option Nat) : Option (Option NodeId) := do
  let r ← a.record? id
  match r.parent with
  | none => return none
  | some p =>
    let q ← a.record? p
    return (i r.index).bind fun j => q.children[j]?

/-- The sibling just before a node, if there is one. -/
def prev? (a : Arena) (id : NodeId) : Option (Option NodeId) :=
  a.sibling? id fun i => if i = 0 then none else some (i - 1)

/-- The sibling just after a node, if there is one. -/
def next? (a : Arena) (id : NodeId) : Option (Option NodeId) :=
  a.sibling? id fun i => some (i + 1)

/-- The last child of a node whose record satisfies a test, if there is one. -/
def lastWith? (a : Arena) (id : NodeId) (test : Record → Bool) : Option (Option NodeId) := do
  (← a.record? id).children.reverse.findM? fun c => do return test (← a.record? c)

/-! ## Walks -/

/-- A node with a number of levels below it. -/
def view? (a : Arena) : Nat → NodeId → Option Tree
  | 0, id => do return (← a.record? id).node []
  | depth + 1, id => do
    let r ← a.record? id
    return r.node (← r.children.mapM (view? a depth))

/-- The nodes above a node, from the parent up, in a number of steps. -/
def ancestorsWithin (a : Arena) : (steps : Nat) → NodeId → Option (List NodeId)
  | 0, _ => none
  | steps + 1, id => do
    match ← a.parent? id with
    | none => return []
    | some p => return p :: (← ancestorsWithin a steps p)

/-- The nodes above a node, from the parent up. -/
def ancestors (a : Arena) (id : NodeId) : Option (List NodeId) :=
  a.ancestorsWithin a.size id

/-- The kinds of the siblings before a node, in document order and in a number of steps. -/
def kindsBeforeWithin (a : Arena) : (steps : Nat) → NodeId → Option (List Kind)
  | 0, _ => none
  | steps + 1, id => do
    match ← a.prev? id with
    | none => return []
    | some s => return (← kindsBeforeWithin a steps s) ++ [(← a.record? s).kind]

/-- The kinds of the siblings before a node, in document order. -/
def kindsBefore (a : Arena) (id : NodeId) : Option (List Kind) :=
  a.kindsBeforeWithin a.size id

/-- The kinds of the children of a node up to the last one that starts before `pos`. -/
def kindsUpTo (a : Arena) (id : NodeId) (pos : Nat) : Option (List Kind) := do
  if (← a.record? id).kind.isError then return []
  match ← a.lastWith? id fun c => c.start < pos with
  | none => return []
  | some c => return (← a.kindsBefore c) ++ [(← a.record? c).kind]

/-- The innermost node below, entering the last child that the cursor touches at each step. -/
def descendWithin (a : Arena) (pos : Nat) : (steps : Nat) → NodeId → Option NodeId
  | 0, _ => none
  | steps + 1, id => do
    if (← a.record? id).kind.isError then return id
    match ← a.lastWith? id fun c => (c.node []).touches pos with
    | none => return id
    | some c => descendWithin a pos steps c

/-- The innermost node below, always entering the last child that the cursor touches. -/
def descend (a : Arena) (pos : Nat) (id : NodeId) : Option NodeId :=
  a.descendWithin pos a.size id

/-- The nodes on a stack and below, each before its children, in a number of steps. -/
def visitWithin (a : Arena) : (steps : Nat) → (stack : List NodeId) → Option (List NodeId)
  | _, [] => some []
  | 0, _ :: _ => none
  | steps + 1, id :: rest => do
    return id :: (← visitWithin a steps ((← a.record? id).children ++ rest))

/-- A node and the nodes below it, each before its children and in document order. -/
def visit (a : Arena) (id : NodeId) : Option (List NodeId) :=
  a.visitWithin a.size [id]

end Arena

/-- A tree in an arena. -/
structure StoredTree where
  arena : Arena
  root : NodeId
  deriving Repr, Inhabited

namespace StoredTree

/-- The nodes of the tree, each before its children and in document order. -/
def preorder (s : StoredTree) : Option (List NodeId) :=
  s.arena.visit s.root

/-- The nodes of the tree in document order, each with a number of levels below it. -/
def views (s : StoredTree) (depth : Nat) : Option (List Tree) := do
  (← s.preorder).mapM (s.arena.view? depth)

/-- The innermost node at a cursor. -/
def resolve (s : StoredTree) (pos : Nat) : Option NodeId := do
  s.arena.descend (min pos (← s.arena.record? s.root).stop) s.root

end StoredTree

end TypeqlAssist

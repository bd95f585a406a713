import TypeqlAssist.Tree.Basic

/-!
# Locations in a tree

A location is a node together with the way up from it: the parent with the index of the node in
it, then the parent's parent, up to the root. Every move is partial, and running off the tree is
an ordinary outcome.
-/

namespace TypeqlAssist

namespace Tree

/-- One step up: the parent, and which of its children the step came from. -/
structure Step where
  parent : Tree
  index : Nat
  deriving Repr, Inhabited

/-- A node and the steps from it up to the root. -/
structure Location where
  focus : Tree
  path : List Step
  deriving Repr, Inhabited

namespace Location

/-- The location of the root. -/
def ofRoot (root : Tree) : Location :=
  ⟨root, []⟩

/-- The location of the child with a given index. -/
def child? (l : Location) (i : Nat) : Option Location :=
  l.focus.children[i]?.map fun c => ⟨c, ⟨l.focus, i⟩ :: l.path⟩

/-- The locations of all children. -/
def children (l : Location) : List Location :=
  l.focus.children.mapIdx fun i c => ⟨c, ⟨l.focus, i⟩ :: l.path⟩

/-- The location of the parent; the root has none. -/
def parent? (l : Location) : Option Location :=
  match l.path with
  | [] => none
  | s :: path => some ⟨s.parent, path⟩

/-- The location of the sibling with a given index. -/
def sibling? (l : Location) (i : Nat → Option Nat) : Option Location :=
  match l.path with
  | [] => none
  | s :: path => (i s.index).bind (child? ⟨s.parent, path⟩)

/-- The location of the sibling just before. -/
def prev? (l : Location) : Option Location :=
  l.sibling? fun i => if i = 0 then none else some (i - 1)

/-- The location of the sibling just after. -/
def next? (l : Location) : Option Location :=
  l.sibling? fun i => some (i + 1)

/-- The location of the first child. -/
def first? (l : Location) : Option Location :=
  l.child? 0

/-- The location of the last child. -/
def last? (l : Location) : Option Location :=
  l.child? (l.focus.children.length - 1)

/-- The location of the last child that satisfies a test. -/
def lastWith? (l : Location) (test : Tree → Bool) : Option Location :=
  l.children.reverse.find? fun c => test c.focus

/-- The location of the last child that starts before an offset. -/
def childBefore? (l : Location) (pos : Nat) : Option Location :=
  l.lastWith? (·.start < pos)

/-- The location of the first child of a kind. -/
def childOfKind? (l : Location) (k : Kind) : Option Location :=
  l.children.find? (·.focus.kind == k)

/-- The nodes above, from the parent up to the root. -/
def ancestors (l : Location) : List Tree :=
  l.path.map (·.parent)

/-- The node is the first child of its parent. -/
def isFirst (l : Location) : Bool :=
  match l.path with
  | [] => false
  | s :: _ => s.index == 0

/-- The kinds of the siblings before the node, in document order. -/
def kindsBefore (l : Location) : List Kind :=
  match l.path with
  | [] => []
  | s :: _ => (s.parent.children.take s.index).map kind

end Location

/--
The kinds of the children up to the last one that starts before `pos`. An error node has none to
show: what it wraps is no context.
-/
def kindsUpTo (t : Tree) (pos : Nat) : List Kind :=
  if t.kind.isError then []
  else ((t.children.reverse.dropWhile fun c => pos ≤ c.start).reverse).map kind

/-- The cursor at `pos` is inside the node or at its end, and the node is no punctuation. -/
def touches (t : Tree) (pos : Nat) : Bool :=
  t.start < pos && pos ≤ t.stop && !t.kind.isPunctuation

mutual

/-- The innermost location below a node, entering the last child that the cursor touches. -/
def descend (pos : Nat) (path : List Step) : Tree → Location
  | node k a b cs =>
    if k.isError then ⟨node k a b cs, path⟩
    else (descendLast pos (node k a b cs) path 0 cs).getD ⟨node k a b cs, path⟩

/-- The innermost location below the last of some children that the cursor touches. -/
def descendLast (pos : Nat) (parent : Tree) (path : List Step) :
    (index : Nat) → List Tree → Option Location
  | _, [] => none
  | index, t :: ts =>
    match descendLast pos parent path (index + 1) ts with
    | some l => some l
    | none =>
      if t.touches pos then some (descend pos (⟨parent, index⟩ :: path) t) else none

end

/--
The innermost node at a cursor. A node that ends at the cursor is preferred to one that starts
there; a cursor behind the tree counts as standing at its end.
-/
def resolve (root : Tree) (pos : Nat) : Location :=
  descend (min pos root.stop) [] root

end Tree

end TypeqlAssist

import TypeqlAssist.Text.Bytes
import TypeqlAssist.Token

/-!
# Concrete syntax trees

A node has a kind, a byte span and the list of its children; a token is a node without children.
A `SyntaxTree` also keeps the nodes that were made outside its root, so that its size counts
every node ever made.
-/

namespace TypeqlAssist

/-- A node of a syntax tree with everything below it. -/
inductive Tree where
  | node (kind : Kind) (start stop : Nat) (children : List Tree)
  deriving Repr, Inhabited

namespace Tree

/-- The kind of the topmost node. -/
def kind : Tree → Kind
  | node k _ _ _ => k

/-- The offset of the first byte of the node. -/
def start : Tree → Nat
  | node _ a _ _ => a

/-- The offset after the last byte of the node. -/
def stop : Tree → Nat
  | node _ _ b _ => b

/-- The children, in document order. -/
def children : Tree → List Tree
  | node _ _ _ cs => cs

/-- The kind of a node. -/
@[simp]
theorem kind_node (k : Kind) (a b : Nat) (cs : List Tree) : (node k a b cs).kind = k := rfl

/-- The offset at which a node starts. -/
@[simp]
theorem start_node (k : Kind) (a b : Nat) (cs : List Tree) : (node k a b cs).start = a := rfl

/-- The offset at which a node stops. -/
@[simp]
theorem stop_node (k : Kind) (a b : Nat) (cs : List Tree) : (node k a b cs).stop = b := rfl

/-- The children of a node. -/
@[simp]
theorem children_node (k : Kind) (a b : Nat) (cs : List Tree) :
    (node k a b cs).children = cs := rfl

/-- The leaf of a token. -/
def leaf (token : Token) : Tree :=
  node token.kind token.start token.stop []

/--
A node over its children: it starts where the first child does, or at `offset` without children,
and stops where the last child does, or at `extent` if that is further on.
-/
def enclose (kind : Kind) (offset : Nat) (children : List Tree) (extent : Option Nat) : Tree :=
  let first := (children.head?.map start).getD offset
  let last := (children.getLast?.map stop).getD first
  node kind first (max last (extent.getD last)) children

mutual

/-- The number of nodes of a tree. -/
def size : Tree → Nat
  | node _ _ _ cs => sizeAll cs + 1

/-- The number of nodes of several trees. -/
def sizeAll : List Tree → Nat
  | [] => 0
  | t :: ts => t.size + sizeAll ts

end

mutual

/-- The nodes of a tree, each before its children and in document order. -/
def preorder : Tree → List Tree
  | node k a b cs => node k a b cs :: preorderAll cs

/-- The nodes of several trees, one tree after the other. -/
def preorderAll : List Tree → List Tree
  | [] => []
  | t :: ts => t.preorder ++ preorderAll ts

end

/-- The last child that starts before an offset. -/
def childBefore? (t : Tree) (pos : Nat) : Option Tree :=
  t.children.reverse.find? (·.start < pos)

/-- The first child of a kind. -/
def child? (t : Tree) (k : Kind) : Option Tree :=
  t.children.find? (·.kind == k)

/-- The part of a text that the node covers, empty where the span does not fit the text. -/
def textIn (t : Tree) (text : Text) : String :=
  String.ofList (text.slice t.start t.stop)

/-- The kind and span of a node in one word. -/
def describe (t : Tree) : String :=
  t.kind.name ++ "@" ++ toString t.start ++ ".." ++ toString t.stop

mutual

/-- One line per node, indented by two blanks for each level above it. -/
def outlineFrom (depth : Nat) : Tree → String
  | node k a b cs =>
    "".pushn ' ' (2 * depth) ++ k.name ++ " [" ++ toString a ++ ".." ++ toString b ++ "]\n"
      ++ outlineAll (depth + 1) cs

/-- The lines of several trees. -/
def outlineAll (depth : Nat) : List Tree → String
  | [] => ""
  | t :: ts => t.outlineFrom depth ++ outlineAll depth ts

end

/-- One line per node, in document order. -/
def outline (t : Tree) : String :=
  t.outlineFrom 0

end Tree

/-- A syntax tree, with the trees that were finished while no node was open. -/
structure SyntaxTree where
  root : Tree
  detached : List Tree
  deriving Repr, Inhabited

namespace SyntaxTree

/-- The number of nodes ever made. -/
def size (t : SyntaxTree) : Nat :=
  Tree.sizeAll t.detached + t.root.size

end SyntaxTree

end TypeqlAssist

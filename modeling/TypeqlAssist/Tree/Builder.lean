import TypeqlAssist.Tree.Basic

/-!
# Building trees step by step

A builder holds the nodes that are still open, innermost first. Any sequence of steps is allowed:
closing with nothing open does nothing, and a node made while nothing is open stays outside the
tree.
-/

namespace TypeqlAssist

namespace Tree

/-- A node that is still open: its kind, the children so far, and where it starts without any. -/
structure Frame where
  kind : Kind
  children : List Tree
  offset : Nat
  deriving Repr, Inhabited

/-- The open nodes, innermost first, and the trees that were finished outside of any. -/
structure Builder where
  frames : List Frame
  detached : List Tree
  deriving Repr, Inhabited

namespace Builder

/-- A builder with nothing open. -/
def empty : Builder :=
  ⟨[], []⟩

/-- A finished tree goes to the innermost open node, or outside if there is none. -/
def attach (b : Builder) (t : Tree) : Builder :=
  match b.frames with
  | [] => { b with detached := b.detached ++ [t] }
  | f :: fs => { b with frames := { f with children := f.children ++ [t] } :: fs }

/-- Opens a node. -/
def start (b : Builder) (kind : Kind) (offset : Nat) : Builder :=
  { b with frames := ⟨kind, [], offset⟩ :: b.frames }

/-- Adds a token. -/
def token (b : Builder) (token : Token) : Builder :=
  b.attach (leaf token)

/-- Closes the innermost open node, which reaches at least to `extent`. -/
def finish (b : Builder) (extent : Option Nat) : Builder :=
  match b.frames with
  | [] => b
  | f :: fs => ({ b with frames := fs }).attach (enclose f.kind f.offset f.children extent)

/-- The number of children of the innermost open node. -/
def checkpoint (b : Builder) : Nat :=
  match b.frames with
  | [] => 0
  | f :: _ => f.children.length

/-- Opens a node over the children added since a checkpoint. -/
def startAt (b : Builder) (checkpoint : Nat) (kind : Kind) : Builder :=
  match b.frames with
  | [] => b.start kind 0
  | f :: fs =>
    let adopted := f.children.drop checkpoint
    let offset := (adopted.head?.map Tree.start).getD 0
    let frame := { f with children := f.children.take checkpoint }
    { b with frames := ⟨kind, adopted, offset⟩ :: frame :: fs }

/-- The kind of the innermost open node. -/
def currentKind? (b : Builder) : Option Kind :=
  b.frames.head?.map (·.kind)

/-- The kind of the last child of the innermost open node. -/
def lastChildKind? (b : Builder) : Option Kind :=
  b.frames.head?.bind fun f => f.children.getLast?.map Tree.kind

/-- Closes open nodes into their parents until one is left, which becomes the root. -/
def closeInto (length : Nat) : Frame → List Frame → Tree
  | f, [] => node f.kind 0 length f.children
  | f, g :: fs =>
    closeInto length { g with children := g.children ++ [enclose f.kind f.offset f.children none] } fs

/-- Closes everything; the root spans the bytes from 0 to `length`. -/
def build (b : Builder) (length : Nat) : SyntaxTree :=
  match b.frames with
  | [] => ⟨node .source 0 length [], b.detached⟩
  | f :: fs => ⟨closeInto length f fs, b.detached⟩

end Builder

/-- A step of a builder. -/
inductive Builder.Action where
  | start (kind : Kind) (offset : Nat)
  | token (token : Token)
  | finish (extent : Option Nat)
  | startAt (checkpoint : Nat) (kind : Kind)
  deriving Repr

/-- The builder after a step. -/
def Builder.apply (b : Builder) : Builder.Action → Builder
  | .start kind offset => b.start kind offset
  | .token token => b.token token
  | .finish extent => b.finish extent
  | .startAt checkpoint kind => b.startAt checkpoint kind

end Tree

/-- The tree that a sequence of steps builds; its root spans the bytes from 0 to `length`. -/
def SyntaxTree.ofActions (actions : List Tree.Builder.Action) (length : Nat) : SyntaxTree :=
  (actions.foldl Tree.Builder.apply .empty).build length

end TypeqlAssist

import TypeqlAssist.Tree.Arena
import TypeqlAssist.Tree.Builder

/-!
# Building trees in an arena

An open node holds the numbers of its children. They learn of their parent when it is closed, since
only then it gets a number itself. Any sequence of steps is allowed.
-/

namespace TypeqlAssist

namespace Arena

/-- The arena with another record for a node. -/
def put (a : Arena) (id : NodeId) (r : Record) : Arena :=
  ⟨a.records.setIfInBounds id.toNat r⟩

/-- The nodes become the children of `parent`, at the indices from `index` on. -/
def link (a : Arena) (parent : NodeId) (index : Nat) : List NodeId → Option Arena
  | [] => some a
  | c :: cs => do
    let r ← a.record? c
    (a.put c { r with parent := some parent, index }).link parent (index + 1) cs

/-- Makes a node over some children; its number is the next one, as far as numbers go. -/
def add? (a : Arena) (kind : Kind) (start stop : Nat) (children : List NodeId) :
    Option (NodeId × Arena) := do
  let id := UInt32.ofNat a.size
  let linked ← a.link id 0 children
  return (id, ⟨linked.records.push ⟨kind, start, stop, none, 0, children⟩⟩)

/-- The offset on one side of a node, or a given one without a node. -/
def edge? (a : Arena) (side : Record → Nat) (offset : Nat) : Option NodeId → Option Nat
  | none => some offset
  | some id => do return side (← a.record? id)

/-- A node that is still open: its kind, the children so far, and where it starts without any. -/
structure Frame where
  kind : Kind
  children : List NodeId
  offset : Nat
  deriving Repr, Inhabited

/-- The nodes made so far, and the open ones, innermost first. -/
structure Builder where
  arena : Arena
  frames : List Frame
  deriving Repr, Inhabited

namespace Builder

/-- A builder with no nodes. -/
def empty : Builder :=
  ⟨⟨#[]⟩, []⟩

/-- A node goes to the innermost open one, if there is one. -/
def attach (b : Builder) (id : NodeId) : Builder :=
  match b.frames with
  | [] => b
  | f :: fs => { b with frames := { f with children := f.children ++ [id] } :: fs }

/-- Makes a node in the innermost open one. -/
def add? (b : Builder) (kind : Kind) (start stop : Nat) (children : List NodeId) :
    Option Builder := do
  let (id, arena) ← b.arena.add? kind start stop children
  return ({ b with arena }).attach id

/-- Opens a node. -/
def start (b : Builder) (kind : Kind) (offset : Nat) : Builder :=
  { b with frames := ⟨kind, [], offset⟩ :: b.frames }

/-- Adds a token. -/
def token (b : Builder) (token : Token) : Option Builder :=
  b.add? token.kind token.start token.stop []

/-- Closes the innermost open node, which reaches at least to `extent`. -/
def finish (b : Builder) (extent : Option Nat) : Option Builder := do
  match b.frames with
  | [] => return b
  | f :: fs =>
    let first ← b.arena.edge? Record.start f.offset f.children.head?
    let last ← b.arena.edge? Record.stop first f.children.getLast?
    ({ b with frames := fs }).add? f.kind first (max last (extent.getD last)) f.children

/-- The number of children of the innermost open node. -/
def checkpoint (b : Builder) : Nat :=
  match b.frames with
  | [] => 0
  | f :: _ => f.children.length

/-- Opens a node over the children added since a checkpoint. -/
def startAt (b : Builder) (checkpoint : Nat) (kind : Kind) : Option Builder := do
  match b.frames with
  | [] => return b.start kind 0
  | f :: fs =>
    let adopted := f.children.drop checkpoint
    let offset ← b.arena.edge? Record.start 0 adopted.head?
    let frame := { f with children := f.children.take checkpoint }
    return { b with frames := ⟨kind, adopted, offset⟩ :: frame :: fs }

/-- The kind of the innermost open node. -/
def currentKind? (b : Builder) : Option Kind :=
  b.frames.head?.map (·.kind)

/-- The kind of the last child of the innermost open node, if there is one. -/
def lastChildKind? (b : Builder) : Option (Option Kind) := do
  match b.frames.head?.bind fun f => f.children.getLast? with
  | none => return none
  | some id => return some (← b.arena.record? id).kind

/-- The builder after a step. -/
def apply (b : Builder) : Tree.Builder.Action → Option Builder
  | .start kind offset => some (b.start kind offset)
  | .token token => b.token token
  | .finish extent => b.finish extent
  | .startAt checkpoint kind => b.startAt checkpoint kind

/-- Closes a number of open nodes. -/
def close (b : Builder) : (count : Nat) → Option Builder
  | 0 => some b
  | count + 1 => do (← b.finish none).close count

/-- Closes everything; the root spans the bytes from 0 to `length`. -/
def build (b : Builder) (length : Nat) : Option StoredTree := do
  let b ← b.close (b.frames.length - 1)
  let f := b.frames.headD ⟨.source, [], 0⟩
  let (root, arena) ← b.arena.add? f.kind 0 length f.children
  return ⟨arena, root⟩

end Builder

end Arena

/-- The tree that a sequence of steps builds; its root spans the bytes from 0 to `length`. -/
def StoredTree.ofActions (actions : List Tree.Builder.Action) (length : Nat) :
    Option StoredTree := do
  (← actions.foldlM Arena.Builder.apply .empty).build length

end TypeqlAssist

import TypeqlAssist.Completion.Dispatch
import TypeqlAssist.Completion.Word
import TypeqlAssist.Tree.Location

/-!
# Completion at a cursor

The innermost node at the cursor and the nodes above it are asked in turn, each together with the
kinds that stand before the cursor below it. The first rule that fires decides what is offered; a
rule that continues adds the offer of the nodes further up.
-/

namespace TypeqlAssist

namespace Completion

/-- A node that is asked for an offer, and the kinds that stand before the cursor below it. -/
structure Context where
  node : Tree
  preceding : List Kind
  deriving Repr

/-- The contexts from a node up to the root, each with the siblings passed on the way up. -/
def contextsAlong (t : Tree) (preceding : List Kind) : List Tree.Step → List Context
  | [] => [⟨t, preceding⟩]
  | s :: path =>
    ⟨t, preceding⟩ ::
      contextsAlong s.parent ((s.parent.children.take s.index).map Tree.kind ++ preceding) path

/-- The contexts at a cursor, innermost first. -/
def contextsAt (l : Tree.Location) (pos : Nat) : List Context :=
  contextsAlong l.focus (l.focus.kindsUpTo pos) l.path

/-- What a node says about an offer. -/
inductive Verdict where
  /-- Nothing may be offered here. -/
  | suppressed
  /-- A rule fires. -/
  | fires (rule : Rule)
  /-- The node has nothing to say. -/
  | silent

/-- The verdict of a node in its context. -/
def consult (pos : Nat) (c : Context) : Verdict :=
  match table c.node.kind with
  | none => .silent
  | some entry =>
    match entry.rulesFor? c.node pos with
    | none => .suppressed
    | some rules =>
      match firstFiring? rules c.preceding with
      | none => .silent
      | some rule => .fires rule

/-- The candidates collected from some contexts, or nothing where suggestions are suppressed. -/
def climb (root : Tree) (text : Text) (pos : Nat) : List Context → Option (List Candidate)
  | [] => some []
  | c :: cs =>
    match consult pos c with
    | .suppressed => none
    | .silent => climb root text pos cs
    | .fires rule =>
      let offered := rule.candidates root text
      if rule.continues then (climb root text pos cs).map (offered ++ ·) else some offered

/-- What is offered at a cursor: each candidate replaces the text from `replaceFrom` to it. -/
structure Result where
  replaceFrom : Nat
  candidates : List Candidate
  deriving DecidableEq, Repr

/-- What is offered in a tree at byte `pos`, or nothing. -/
def complete (root : Tree) (text : Text) (pos : Nat) : Option Result :=
  let cursor := min pos text.byteSize
  match climb root text cursor (contextsAt (root.resolve cursor) cursor) with
  | none => none
  | some collected =>
    let candidates := distinctBy (fun c => (c.label, c.category)) collected
    if candidates.isEmpty then none else some ⟨wordStart text cursor, candidates⟩

end Completion

end TypeqlAssist

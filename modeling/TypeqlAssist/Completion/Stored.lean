import TypeqlAssist.Completion.Result
import TypeqlAssist.Tree.Arena

/-!
# Completion in a stored tree

The same offer as that of a tree, found by going along the links of an arena. Every result is
`none` where the links lead out of the arena or take more steps than it has nodes.
-/

namespace TypeqlAssist

namespace Completion

/-- The distinct texts of the nodes of a kind, in document order, without the empty one. -/
def storedTexts (s : StoredTree) (text : Text) (kind : Kind) : Option (List String) := do
  let nodes ← s.views 0
  return distinct (((nodes.filter (·.kind == kind)).map (·.textIn text)).filter (· != ""))

/-- The candidates of a stored tree. -/
def Generator.storedCandidates (g : Generator) (s : StoredTree) (text : Text) :
    Option (List Candidate) := do
  match g with
  | labels => return (← storedTexts s text .label).map fun t => .ofLabel t .typeLabel 0
  | variableNames boost =>
    return ((← storedTexts s text .var).filter fun t => 1 < t.utf8ByteSize).map fun t =>
      .ofLabel t .variableName boost
  | keywords set => return set.candidates

/-- The candidates of all generators, one generator after the other. -/
def Rule.storedCandidates (r : Rule) (s : StoredTree) (text : Text) : Option (List Candidate) := do
  return (← r.generators.mapM (·.storedCandidates s text)).flatten

/-- The candidates collected from a node and those above it, or nothing where suppressed. -/
def climbWithin (s : StoredTree) (text : Text) (pos : Nat) :
    (steps : Nat) → (preceding : List Kind) → (current : Option NodeId) →
      Option (Option (List Candidate))
  | _, _, none => some (some [])
  | 0, _, some _ => none
  | steps + 1, preceding, some id => do
    match consult pos ⟨← s.arena.view? 1 id, preceding⟩ with
    | .suppressed => return none
    | .silent =>
      climbWithin s text pos steps ((← s.arena.kindsBefore id) ++ preceding) (← s.arena.parent? id)
    | .fires rule =>
      let offered ← rule.storedCandidates s text
      if rule.continues then
        return (← climbWithin s text pos steps ((← s.arena.kindsBefore id) ++ preceding)
          (← s.arena.parent? id)).map (offered ++ ·)
      else return some offered

/-- The candidates collected from a node up to the root, or nothing where suppressed. -/
def climbStored (s : StoredTree) (text : Text) (pos : Nat) (id : NodeId) :
    Option (Option (List Candidate)) := do
  climbWithin s text pos s.arena.size (← s.arena.kindsUpTo id pos) (some id)

/-- What is offered in a stored tree at byte `pos`, or nothing. -/
def completeStored (s : StoredTree) (text : Text) (pos : Nat) : Option (Option Result) := do
  let cursor := min pos text.byteSize
  match ← climbStored s text cursor (← s.resolve cursor) with
  | none => return none
  | some collected =>
    let candidates := distinctBy (fun c => (c.label, c.category)) collected
    return if candidates.isEmpty then none else some ⟨wordStart text cursor, candidates⟩

end Completion

end TypeqlAssist

import TypeqlAssist.Document
import TypeqlAssist.Schema.Basic

/-!
# The schema of a document

The definitions of `define` and `redefine` queries are recorded in document order. A definition
without a root kind extends an attribute if one with its label is known by then, and an object
type otherwise.
-/

namespace TypeqlAssist

namespace Schema

/-- A type reference as a label; the parts of a scoped one are joined by a colon. -/
def labelOfRef (ref : Tree) (text : Text) : String :=
  ":".intercalate
    ((ref.children.filter fun c => c.kind == .label || c.kind == .rootKind).map (·.textIn text))

/-- The keyword and the target of a constraint that has both. -/
def constraint? (constraint : Tree) (text : Text) : Option (Kind × String) := do
  let keyword ← constraint.children.head?
  let ref ← constraint.child? .typeRef
  return (keyword.kind, labelOfRef ref text)

/-- The keywords and targets of the constraints of a definition. -/
def constraintsOf (definable : Tree) (text : Text) : List (Kind × String) :=
  (definable.children.filter (·.kind == .typeConstraint)).filterMap (constraint? · text)

/-- What a constraint says about an attribute. -/
def attributeChange? (label : String) : Kind × String → Option Change
  | (.kwSub, target) => some (.attributeSuper label target)
  | (.kwValue, target) => some (.valueType label target)
  | _ => none

/-- What a constraint says about an object type. -/
def objectChange? (label : String) : Kind × String → Option Change
  | (.kwSub, target) => some (.objectSuper label target)
  | (.kwOwns, target) => some (.owns label target)
  | (.kwPlays, target) => some (.plays label target)
  | (.kwRelates, target) => some (.relates label target)
  | _ => none

/-- The definition is one of an attribute, given what is known before it. -/
def isAttributeDefinition (s : Schema) (definable : Tree) (label : String) (text : Text) : Bool :=
  match definable.child? .rootKind with
  | some kind => kind.textIn text == "attribute"
  | none => s.attributes.contains label

/-- What a definition says, given what is known before it. One without a label says nothing. -/
def changesOf (s : Schema) (definable : Tree) (text : Text) : List Change :=
  match definable.child? .label with
  | none => []
  | some node =>
    let label := node.textIn text
    if isAttributeDefinition s definable label text then
      .attributeType label :: (constraintsOf definable text).filterMap (attributeChange? label)
    else
      .object label :: (constraintsOf definable text).filterMap (objectChange? label)

/-- The schema after a definition. -/
def record (text : Text) (s : Schema) (definable : Tree) : Schema :=
  s.applyAll (changesOf s definable text)

/-- The query adds to the schema. -/
def isDefining (query : Tree) : Bool :=
  match query.children.head? with
  | some k => k.kind == .kwDefine || k.kind == .kwRedefine
  | none => false

/-- The definitions of a document, in document order. -/
def definables (root : Tree) : List Tree :=
  (root.preorder.filter fun t => t.kind == .querySchema && isDefining t).flatMap fun q =>
    q.children.filter (·.kind == .definable)

/-- The schema that a tree declares. -/
def extract (root : Tree) (text : Text) : Schema :=
  (definables root).foldl (record text) empty

/-- The schema that a text declares. -/
def ofText (text : Text) : Schema :=
  extract (parseTree text) text

end Schema

end TypeqlAssist

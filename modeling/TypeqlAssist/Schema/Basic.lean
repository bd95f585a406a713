import TypeqlAssist.Schema.Catalog

/-!
# Schemas

The types that a document declares. An attribute that a type owns is recorded on both sides: the
type owns the attribute, and the attribute has the type as an owner.
-/

namespace TypeqlAssist

/-- An entity or relation type. -/
structure ObjectType where
  supertype : Option String
  owns : List String
  plays : List String
  relates : List String
  deriving DecidableEq, Repr, Inhabited

/-- An object type of which nothing is known. -/
def ObjectType.blank : ObjectType :=
  ⟨none, [], [], []⟩

/-- An attribute type. -/
structure AttributeType where
  supertype : Option String
  valueType : Option String
  owners : List String
  deriving DecidableEq, Repr, Inhabited

/-- An attribute type of which nothing is known. -/
def AttributeType.blank : AttributeType :=
  ⟨none, none, []⟩

/-- The declared types, in the order of their first mention. -/
structure Schema where
  objectTypes : Catalog ObjectType
  attributes : Catalog AttributeType
  deriving DecidableEq, Repr, Inhabited

/-- Adds an edge at the end of a list, once. -/
def insertEdge (edges : List String) (target : String) : List String :=
  if edges.contains target then edges else edges ++ [target]

namespace Schema

/-- The schema without types. -/
def empty : Schema :=
  ⟨.empty, .empty⟩

/-! ## Queries -/

/-- The attributes that a type owns. -/
def owns (s : Schema) (label : String) : List String :=
  ((s.objectTypes.get? label).map (·.owns)).getD []

/-- The roles that a type plays. -/
def plays (s : Schema) (label : String) : List String :=
  ((s.objectTypes.get? label).map (·.plays)).getD []

/-- The roles that a relation relates. -/
def relates (s : Schema) (label : String) : List String :=
  ((s.objectTypes.get? label).map (·.relates)).getD []

/-- The types that own an attribute. -/
def owners (s : Schema) (label : String) : List String :=
  ((s.attributes.get? label).map (·.owners)).getD []

/-- The declared supertype, of an object type before that of an attribute. -/
def supertype? (s : Schema) (label : String) : Option String :=
  ((s.objectTypes.get? label).bind (·.supertype)).or
    ((s.attributes.get? label).bind (·.supertype))

/-- All labels, object types first. -/
def labels (s : Schema) : List String :=
  s.objectTypes.labels ++ s.attributes.labels

/-- No type is declared. -/
def isEmpty (s : Schema) : Bool :=
  s.objectTypes.entries.isEmpty && s.attributes.entries.isEmpty

/-! ## Changes -/

/-- Changes an object type, which is created if it is not there. -/
def alterObject (s : Schema) (label : String) (change : ObjectType → ObjectType) : Schema :=
  { s with objectTypes := s.objectTypes.alter label .blank change }

/-- Changes an attribute, which is created if it is not there. -/
def alterAttribute (s : Schema) (label : String) (change : AttributeType → AttributeType) :
    Schema :=
  { s with attributes := s.attributes.alter label .blank change }

/-- One thing that a document says about a type. -/
inductive Change where
  | object (label : String)
  | attributeType (label : String)
  | owns (owner target : String)
  | plays (player role : String)
  | relates (relation role : String)
  | objectSuper (label supertype : String)
  | attributeSuper (label supertype : String)
  | valueType (label valueType : String)
  deriving DecidableEq, Repr

/-- The schema after a change. -/
def apply (s : Schema) : Change → Schema
  | .object label => s.alterObject label id
  | .attributeType label => s.alterAttribute label id
  | .owns owner target =>
    (s.alterObject owner fun o => { o with owns := insertEdge o.owns target }).alterAttribute
      target fun a => { a with owners := insertEdge a.owners owner }
  | .plays player role =>
    s.alterObject player fun o => { o with plays := insertEdge o.plays role }
  | .relates relation role =>
    s.alterObject relation fun o => { o with relates := insertEdge o.relates role }
  | .objectSuper label supertype =>
    s.alterObject label fun o => { o with supertype := some supertype }
  | .attributeSuper label supertype =>
    s.alterAttribute label fun a => { a with supertype := some supertype }
  | .valueType label valueType =>
    s.alterAttribute label fun a => { a with valueType := some valueType }

/-- The schema after several changes. -/
def applyAll (s : Schema) (changes : List Change) : Schema :=
  changes.foldl apply s

end Schema

end TypeqlAssist

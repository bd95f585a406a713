/-!
# Completion candidates

A candidate is a text to insert with what it stands for and how strongly it is offered.
-/

namespace TypeqlAssist

namespace Completion

/-- What a candidate stands for. -/
inductive Category where
  /-- A type that the document declares or mentions. -/
  | typeLabel
  | variableName
  | thingConstraint
  | typeConstraint
  | keyword
  /-- A root kind such as `entity`. -/
  | rootKind
  /-- A template of a nested pattern. -/
  | template
  deriving DecidableEq, Repr, Inhabited

namespace Category

/-- The stable spelling of a category. -/
def name : Category → String
  | typeLabel => "type"
  | variableName => "variable"
  | thingConstraint => "thingConstraint"
  | typeConstraint => "typeConstraint"
  | keyword => "keyword"
  | rootKind => "kind"
  | template => "method"

/-- Every category. -/
def all : List Category :=
  [typeLabel, variableName, thingConstraint, typeConstraint, keyword, rootKind, template]

/-- The category with a given spelling. -/
def ofName? (spelling : String) : Option Category :=
  all.find? (·.name == spelling)

end Category

/-- A text offered at a cursor. -/
structure Candidate where
  label : String
  category : Category
  insertText : String
  info : Option String
  /-- Higher ranks first. -/
  boost : Int
  deriving DecidableEq, Repr, Inhabited

/-- The candidate that inserts its own label. -/
def Candidate.ofLabel (label : String) (category : Category) (boost : Int) : Candidate :=
  ⟨label, category, label, none, boost⟩

end Completion

end TypeqlAssist

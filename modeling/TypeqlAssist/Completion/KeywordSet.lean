import TypeqlAssist.Completion.Candidate

/-!
# Keyword sets

The fixed words that are offered together, with the category, description and boost they share.
-/

namespace TypeqlAssist

namespace Completion

/-- A set of words that complete the same kind of place. -/
inductive KeywordSet where
  | thingConstraints
  | typeConstraints
  | pipelineStages
  | schemaQueries
  | kinds
  | nestedPatterns
  deriving DecidableEq, Repr, Inhabited

namespace KeywordSet

/-- Every set. -/
def all : List KeywordSet :=
  [thingConstraints, typeConstraints, pipelineStages, schemaQueries, kinds, nestedPatterns]

/-- The stable spelling of a set. -/
def name : KeywordSet → String
  | thingConstraints => "thingConstraints"
  | typeConstraints => "typeConstraints"
  | pipelineStages => "pipelineStages"
  | schemaQueries => "schemaQueries"
  | kinds => "kinds"
  | nestedPatterns => "nestedPatterns"

/-- The set with a given spelling. -/
def ofName? (spelling : String) : Option KeywordSet :=
  all.find? (·.name == spelling)

/-- The words, in the order in which they are offered. -/
def words : KeywordSet → List String
  | thingConstraints => ["isa", "has", "links"]
  | typeConstraints => ["sub", "owns", "relates", "plays"]
  | pipelineStages =>
    ["match", "insert", "delete", "update", "put", "select", "reduce", "sort", "limit", "offset",
      "end"]
  | schemaQueries => ["define", "redefine", "undefine"]
  | kinds => ["entity", "attribute", "relation"]
  | nestedPatterns => ["not \x7b\x7d;", "\x7b\x7d or \x7b\x7d;", "try \x7b\x7d;"]

/-- What the words stand for. -/
def category : KeywordSet → Category
  | thingConstraints => .thingConstraint
  | typeConstraints => .typeConstraint
  | pipelineStages => .keyword
  | schemaQueries => .keyword
  | kinds => .rootKind
  | nestedPatterns => .template

/-- The description of every word. -/
def info : KeywordSet → String
  | thingConstraints => "Thing constraint keyword"
  | typeConstraints => "Type constraint keyword"
  | pipelineStages => "Pipeline stage"
  | schemaQueries => "Schema query"
  | kinds => "Root type"
  | nestedPatterns => "Nested pattern"

/-- How strongly the words are offered. -/
def boost : KeywordSet → Int
  | thingConstraints => 0
  | typeConstraints => 0
  | pipelineStages => 1
  | schemaQueries => 1
  | kinds => 2
  | nestedPatterns => 2

/-- A word belongs to the set. -/
def contains (set : KeywordSet) (word : String) : Bool :=
  set.words.contains word

/-- The candidates of a set, one for each word. -/
def candidates (set : KeywordSet) : List Candidate :=
  set.words.map fun w => ⟨w, set.category, w, some set.info, set.boost⟩

end KeywordSet

end Completion

end TypeqlAssist

import TypeqlAssist.Completion.Generator

/-!
# The dispatch table

The table maps the kind of a node to rules. A rule fires when what stands before the cursor ends
with one of its suffixes, and the first rule that fires decides what is offered.
-/

namespace TypeqlAssist

namespace Completion

/-- What is offered after certain kinds. -/
structure Rule where
  suffixes : List (List Kind)
  generators : List Generator
  /-- The nodes further up may add to the offer. -/
  continues : Bool
  deriving Repr

namespace Rule

/-- The kinds before the cursor end with one of the suffixes. -/
def fires (r : Rule) (preceding : List Kind) : Bool :=
  r.suffixes.any (·.isSuffixOf preceding)

/-- The candidates of all generators, one generator after the other. -/
def candidates (r : Rule) (root : Tree) (text : Text) : List Candidate :=
  r.generators.flatMap (·.candidates root text)

end Rule

/-- What a refinement selects. -/
inductive Refined where
  | rules (rules : List Rule)
  /-- Nothing is offered at all. -/
  | suppress
  deriving Repr

/-- The entry of a kind. -/
inductive Entry where
  | rules (rules : List Rule)
  /-- The rules are chosen by the kind of the child before the cursor. -/
  | refined (refinements : List (Kind × Refined)) (otherwise : List Rule)
  deriving Repr

/-- The rules for a node with the cursor at `pos`, or nothing where suggestions are suppressed. -/
def Entry.rulesFor? (e : Entry) (t : Tree) (pos : Nat) : Option (List Rule) :=
  match e with
  | rules rs => some rs
  | refined refinements otherwise =>
    let before := (t.childBefore? pos).map Tree.kind
    match refinements.find? fun r => some r.1 == before with
    | some (_, .rules rs) => some rs
    | some (_, .suppress) => none
    | none => some otherwise

/-- The first rule that fires. -/
def firstFiring? (rules : List Rule) (preceding : List Kind) : Option Rule :=
  rules.find? (·.fires preceding)

/-! ## The rules -/

/-- Variables where one is most likely wanted. -/
def freshVariables : Generator := .variableNames 10

/-- Variables where a type is more likely wanted. -/
def demotedVariables : Generator := .variableNames (-10)

/-- On a label. -/
def labelRules : List Rule :=
  [⟨[[]], [.labels], false⟩]

/-- On a variable. -/
def variableRules : List Rule :=
  [⟨[[]], [freshVariables], false⟩]

/-- In a statement about a thing. -/
def thingStatementRules : List Rule :=
  [⟨[[.var], [.comma], [.relation]], [.keywords .thingConstraints], false⟩,
   ⟨[[.kwHas], [.kwIsa]], [.labels, demotedVariables], false⟩,
   ⟨[[.kwHas, .typeRef]], [demotedVariables], false⟩]

/-- In a statement about a type. -/
def typeStatementRules : List Rule :=
  [⟨[[.var], [.comma]], [.keywords .typeConstraints], false⟩,
   ⟨[[.kwSub], [.kwOwns], [.kwPlays], [.kwRelates]], [.labels, demotedVariables], false⟩]

/-- In a statement that has only its subject yet. -/
def undecidedStatementRules : List Rule :=
  [⟨[[.var], [.comma]], [.keywords .thingConstraints, .keywords .typeConstraints], false⟩]

/-- In a match clause. After a pattern, another one or the next stage may follow. -/
def matchRules : List Rule :=
  [⟨[[.kwMatch, .typeRef], [.semicolon, .typeRef]], [.keywords .typeConstraints], false⟩,
   ⟨[[.kwMatch]], [freshVariables, .labels], false⟩,
   ⟨[[.semicolon]], [freshVariables, .keywords .nestedPatterns], true⟩]

/-- In a clause that writes. -/
def writeRules : List Rule :=
  [⟨[[.var], [.comma], [.relation]], [.keywords .thingConstraints], false⟩,
   ⟨[[.kwHas], [.kwIsa]], [.labels, demotedVariables], false⟩,
   ⟨[[.kwHas, .typeRef]], [demotedVariables], false⟩,
   ⟨[[.kwInsert], [.kwDelete], [.kwUpdate], [.kwPut]], [freshVariables], false⟩,
   ⟨[[.semicolon]], [freshVariables], true⟩]

/-- In a block. -/
def blockRules : List Rule :=
  [⟨[[.lbrace], [.semicolon]], [freshVariables, .keywords .nestedPatterns], false⟩]

/-- In the role players of a relation. -/
def relationRules : List Rule :=
  [⟨[[.colon]], [freshVariables], false⟩,
   ⟨[[.lparen], [.comma]], [.labels, .variableNames 0], false⟩]

/-- In a pipeline, after a stage. -/
def pipelineRules : List Rule :=
  [⟨[[.semicolon], [.clauseMatch], [.clauseInsert], [.clauseDelete], [.clauseUpdate], [.clausePut],
     [.stageSelect], [.stageSort], [.stageLimit], [.stageOffset], [.stageReduce]],
    [.keywords .pipelineStages], false⟩]

/-- In a list of variables. -/
def modifierRules : List Rule :=
  [⟨[[.kwSelect], [.kwSort], [.comma]], [freshVariables], false⟩]

/-- After the whole content of a query. -/
def queryRules : List Rule :=
  [⟨[[.querySchema]], [.labels, .keywords .kinds], false⟩,
   ⟨[[.queryPipeline]],
    [.keywords .pipelineStages, .keywords .nestedPatterns, freshVariables], false⟩]

/-- In a schema query. -/
def schemaQueryRules : List Rule :=
  [⟨[[.kwDefine], [.kwRedefine], [.kwUndefine], [.semicolon]], [.labels, .keywords .kinds], false⟩,
   ⟨[[.kwDefine, .label], [.semicolon, .label]], [.keywords .typeConstraints], false⟩]

/-- In a definition. -/
def definableRules : List Rule :=
  [⟨[[.comma], [.rootKind, .label]], [.keywords .typeConstraints], false⟩,
   ⟨[[.kwOwns], [.kwSub], [.kwPlays], [.kwRelates]], [.labels], false⟩]

/-- After a query. -/
def sourceRules : List Rule :=
  [⟨[[.query]], [.keywords .pipelineStages, .keywords .schemaQueries], false⟩]

/-- The kind of the child before the cursor tells what a statement is about. -/
def statementRefinements : List (Kind × Refined) :=
  [(.statementAssignment, .suppress),
   (.statementThing, .rules thingStatementRules),
   (.statementType, .rules typeStatementRules)]

/-- The dispatch table. -/
def table : Kind → Option Entry
  | .label => some (.rules labelRules)
  | .var => some (.rules variableRules)
  | .statement => some (.refined statementRefinements undecidedStatementRules)
  | .clauseMatch => some (.rules matchRules)
  | .clauseInsert | .clauseDelete | .clauseUpdate | .clausePut => some (.rules writeRules)
  | .patternNegation | .patternTry | .patternConjunction => some (.rules blockRules)
  | .relation => some (.rules relationRules)
  | .stageSelect | .stageSort => some (.rules modifierRules)
  | .queryPipeline => some (.rules pipelineRules)
  | .query => some (.rules queryRules)
  | .querySchema => some (.rules schemaQueryRules)
  | .definable => some (.rules definableRules)
  | .source => some (.rules sourceRules)
  | _ => none

end Completion

end TypeqlAssist

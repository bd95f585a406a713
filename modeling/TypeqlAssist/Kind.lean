/-!
# Kinds of tokens and nodes

Every node of a TypeQL syntax tree carries a `Kind`: a token kind for a leaf, a production for an
inner node, or `error` for input that could not be placed. `Kind.name` is the stable spelling.
-/

namespace TypeqlAssist

/-- The kind of a token or of a node of a syntax tree. -/
inductive Kind where
  | var | label | rootKind | stringLiteral | numberLiteral
  | kwMatch | kwInsert | kwDelete | kwUpdate | kwPut
  | kwSelect | kwReduce | kwSort | kwLimit | kwOffset | kwEnd
  | kwDefine | kwRedefine | kwUndefine | kwFun | kwReturn
  | kwIsa | kwHas | kwLinks | kwSub | kwOwns | kwRelates | kwPlays | kwValue
  | kwLet | kwNot | kwOr | kwTry | kwAsc | kwDesc
  | comma | semicolon | colon | lparen | rparen | lbrace | rbrace | assign | arrow | operator
  | source | query | querySchema | queryPipeline
  | clauseMatch | clauseInsert | clauseDelete | clauseUpdate | clausePut
  | stageSelect | stageSort | stageLimit | stageOffset | stageReduce
  | definable | typeConstraint | function | functionParams | functionReturn
  | statement | statementThing | statementType | statementAssignment
  | relation | rolePlayer | typeRef
  | patternNegation | patternDisjunction | patternConjunction | patternTry
  | expression | functionCall
  | error
  deriving DecidableEq, Repr, Inhabited

namespace Kind

/-- The stable spelling of a kind. -/
def name : Kind → String
  | var => "VAR"
  | label => "LABEL"
  | rootKind => "KIND"
  | stringLiteral => "STRINGLITERAL"
  | numberLiteral => "NUMBERLITERAL"
  | kwMatch => "MATCH"
  | kwInsert => "INSERT"
  | kwDelete => "DELETE"
  | kwUpdate => "UPDATE"
  | kwPut => "PUT"
  | kwSelect => "SELECT"
  | kwReduce => "REDUCE"
  | kwSort => "SORT"
  | kwLimit => "LIMIT"
  | kwOffset => "OFFSET"
  | kwEnd => "END"
  | kwDefine => "DEFINE"
  | kwRedefine => "REDEFINE"
  | kwUndefine => "UNDEFINE"
  | kwFun => "FUN"
  | kwReturn => "RETURN"
  | kwIsa => "ISA"
  | kwHas => "HAS"
  | kwLinks => "LINKS"
  | kwSub => "SUB"
  | kwOwns => "OWNS"
  | kwRelates => "RELATES"
  | kwPlays => "PLAYS"
  | kwValue => "VALUE"
  | kwLet => "LET"
  | kwNot => "NOT"
  | kwOr => "OR"
  | kwTry => "TRY"
  | kwAsc => "ASC"
  | kwDesc => "DESC"
  | comma => "COMMA"
  | semicolon => "SEMICOLON"
  | colon => "COLON"
  | lparen => "LPAREN"
  | rparen => "RPAREN"
  | lbrace => "LBRACE"
  | rbrace => "RBRACE"
  | assign => "ASSIGN"
  | arrow => "ARROW"
  | operator => "OP"
  | source => "Source"
  | query => "Query"
  | querySchema => "QuerySchema"
  | queryPipeline => "QueryPipelinePreambled"
  | clauseMatch => "ClauseMatch"
  | clauseInsert => "ClauseInsert"
  | clauseDelete => "ClauseDelete"
  | clauseUpdate => "ClauseUpdate"
  | clausePut => "ClausePut"
  | stageSelect => "StageSelect"
  | stageSort => "StageSort"
  | stageLimit => "StageLimit"
  | stageOffset => "StageOffset"
  | stageReduce => "StageReduce"
  | definable => "Definable"
  | typeConstraint => "TypeConstraint"
  | function => "Function"
  | functionParams => "FunctionParams"
  | functionReturn => "FunctionReturn"
  | statement => "Statement"
  | statementThing => "StatementThing"
  | statementType => "StatementType"
  | statementAssignment => "StatementAssignment"
  | relation => "Relation"
  | rolePlayer => "RolePlayer"
  | typeRef => "TypeRef"
  | patternNegation => "PatternNegation"
  | patternDisjunction => "PatternDisjunction"
  | patternConjunction => "PatternConjunction"
  | patternTry => "PatternTry"
  | expression => "Expression"
  | functionCall => "FunctionCall"
  | error => "Error"

/-- Every kind, tokens first and `error` last. -/
def all : List Kind :=
  [var, label, rootKind, stringLiteral, numberLiteral,
   kwMatch, kwInsert, kwDelete, kwUpdate, kwPut,
   kwSelect, kwReduce, kwSort, kwLimit, kwOffset, kwEnd,
   kwDefine, kwRedefine, kwUndefine, kwFun, kwReturn,
   kwIsa, kwHas, kwLinks, kwSub, kwOwns, kwRelates, kwPlays, kwValue,
   kwLet, kwNot, kwOr, kwTry, kwAsc, kwDesc,
   comma, semicolon, colon, lparen, rparen, lbrace, rbrace, assign, arrow, operator,
   source, query, querySchema, queryPipeline,
   clauseMatch, clauseInsert, clauseDelete, clauseUpdate, clausePut,
   stageSelect, stageSort, stageLimit, stageOffset, stageReduce,
   definable, typeConstraint, function, functionParams, functionReturn,
   statement, statementThing, statementType, statementAssignment,
   relation, rolePlayer, typeRef,
   patternNegation, patternDisjunction, patternConjunction, patternTry,
   expression, functionCall,
   error]

/-- No kind is missing from `all`. -/
theorem mem_all (k : Kind) : k ∈ all := by
  cases k <;> decide

/-- The kind with a given spelling. -/
def ofName? (spelling : String) : Option Kind :=
  all.find? (·.name == spelling)

/-- The keyword kind of a word; a word that is no keyword has none. Keywords are case-sensitive. -/
def keyword? : String → Option Kind
  | "match" => some kwMatch
  | "insert" => some kwInsert
  | "delete" => some kwDelete
  | "update" => some kwUpdate
  | "put" => some kwPut
  | "select" => some kwSelect
  | "reduce" => some kwReduce
  | "sort" => some kwSort
  | "limit" => some kwLimit
  | "offset" => some kwOffset
  | "end" => some kwEnd
  | "define" => some kwDefine
  | "redefine" => some kwRedefine
  | "undefine" => some kwUndefine
  | "fun" => some kwFun
  | "return" => some kwReturn
  | "isa" => some kwIsa
  | "isa!" => some kwIsa
  | "has" => some kwHas
  | "links" => some kwLinks
  | "sub" => some kwSub
  | "sub!" => some kwSub
  | "owns" => some kwOwns
  | "relates" => some kwRelates
  | "plays" => some kwPlays
  | "value" => some kwValue
  | "let" => some kwLet
  | "not" => some kwNot
  | "or" => some kwOr
  | "try" => some kwTry
  | "asc" => some kwAsc
  | "desc" => some kwDesc
  | "entity" => some rootKind
  | "attribute" => some rootKind
  | "relation" => some rootKind
  | _ => none

/-- The keyword that opens a pipeline stage. -/
def isStageKeyword : Kind → Bool
  | kwMatch | kwInsert | kwDelete | kwUpdate | kwPut
  | kwSelect | kwReduce | kwSort | kwLimit | kwOffset => true
  | _ => false

/-- The keyword that opens a schema query. -/
def isSchemaKeyword : Kind → Bool
  | kwDefine | kwRedefine | kwUndefine => true
  | _ => false

/-- Punctuation and operators, as opposed to words and literals. -/
def isPunctuation : Kind → Bool
  | comma | semicolon | colon | lparen | rparen
  | lbrace | rbrace | assign | arrow | operator => true
  | _ => false

/-- The constraint keyword that applies to instances only. -/
def isThingConstraint : Kind → Bool
  | kwIsa | kwHas | kwLinks => true
  | _ => false

/-- The constraint keyword that applies to types only. -/
def isTypeConstraint : Kind → Bool
  | kwSub | kwOwns | kwRelates | kwPlays | kwValue => true
  | _ => false

/-- Input that was not recognised, not placed, or is missing. -/
def isError : Kind → Bool
  | error => true
  | _ => false

/-- The production kind of an inner node. -/
def isProduction : Kind → Bool
  | source | query | querySchema | queryPipeline
  | clauseMatch | clauseInsert | clauseDelete | clauseUpdate | clausePut
  | stageSelect | stageSort | stageLimit | stageOffset | stageReduce
  | definable | typeConstraint | function | functionParams | functionReturn
  | statement | statementThing | statementType | statementAssignment
  | relation | rolePlayer | typeRef
  | patternNegation | patternDisjunction | patternConjunction | patternTry
  | expression | functionCall => true
  | _ => false

/-- The kind of a well-formed token: neither a production nor an error. -/
def isToken (k : Kind) : Bool :=
  !k.isProduction && !k.isError

end Kind

end TypeqlAssist

import TypeqlAssist.Grammar.Rule

/-!
# The TypeQL grammar

The productions of TypeQL as rules. A document is a list of queries; a query defines a schema or
runs a pipeline of stages; stages hold patterns, variables and expressions.
-/

namespace TypeqlAssist

namespace Grammar

/-! ## Questions about the next tokens -/

/-- The next token is of a kind. -/
def next (k : Kind) : Test :=
  fun l => l.first == some k

/-- The next token is of a kind with a property. -/
def nextIs (p : Kind → Bool) : Test :=
  fun l => l.first.any p

/-- The next token is of one kind, and the one after it has a property. -/
def nextThen (k : Kind) (p : Kind → Bool) : Test :=
  fun l => l.first == some k && l.second.any p

/-- A kind is one of several. -/
def oneOf (ks : List Kind) (k : Kind) : Bool :=
  ks.contains k

/-! ## Small rules -/

/-- Reads rules one after the other. -/
def inOrder : List Rule → Rule
  | [] => .skip
  | [p] => p
  | p :: ps => .seq p (inOrder ps)

/-- Reads a token of a kind if it is next. -/
def optional (k : Kind) : Rule :=
  .branch (next k) .take .skip

/-- Reads a token of a kind, or notes that it is absent. -/
def expect (k : Kind) (wanted : Wanted) : Rule :=
  .branch (next k) .take (.missing wanted)

/-- Reads a token of a kind and then a rule, or notes that the token is absent. -/
def expectThen (k : Kind) (wanted : Wanted) (p : Rule) : Rule :=
  .branch (next k) (.seq .take p) (.missing wanted)

/-- Reads a rule, and again after every comma. -/
def commaSeparated (p : Rule) : Rule :=
  .seq p (.many (next .comma) (.seq .take p))

/-- Reads variables separated by commas. -/
def variableList : Rule :=
  commaSeparated (expect .var .var)

/-- Reads a label or a root kind, and after a colon the role of a relation. -/
def typeRef : Rule :=
  .node .typeRef
    (.seq .take (.branch (nextThen .colon (· == .label)) (.seq .take .take) .skip))

/-- Reads the type of a parameter or of a result. -/
def namedType : Rule :=
  .branch (next .label) typeRef (.missing .typeRef)

/-- Reads the `;` after a pattern or a definition, or recovers. -/
def separator : Rule :=
  .branch (next .semicolon) .take
    (.branch (nextIs (!isRecoveryPoint ·)) .recover (.missing .semicolon))

/-! ## Expressions -/

/-- Reads the arguments of a function, its name and bracket included. -/
def functionCall : Rule :=
  .node .functionCall (inOrder [
    .take, .take,
    .branch (next .rparen) .skip (commaSeparated (.nested .expression)),
    expect .rparen .closeParen])

/-- Reads a variable, a literal, a label, a function call or an expression in brackets. -/
def operand : Rule :=
  .branch (nextIs (oneOf [.var, .numberLiteral, .stringLiteral])) .take
    (.branch (nextThen .label (· == .lparen)) functionCall
      (.branch (next .label) .take
        (.branch (next .lparen)
          (.node .expression (inOrder [
            .take, .nested .expression, expect .rparen .closeParen]))
          (.missing .expression))))

/-- Reads operands with operators between them. -/
def expression : Rule :=
  .node .expression (.seq operand (.many (next .operator) (.seq .take operand)))

/-! ## Constraints -/

/--
Reads constraints with optional commas between them, where `accepts` tells how one starts. A word
that starts none is a stray token.
-/
def constraints (accepts : Kind → Bool) (constraint : Rule) : Rule :=
  .many (nextIs fun k => k == .comma || accepts k || k == .label)
    (.branch (next .comma)
      (.seq .take
        (.branch (nextIs fun k => accepts k || k == .label) .skip (.missing .constraint)))
      (.branch (nextIs accepts) constraint .stray))

/-- Reads a type, a variable for one, or notes that it is absent. -/
def typeOrVariable : Rule :=
  .branch (nextIs (oneOf [.label, .rootKind])) typeRef
    (.branch (next .var) .take (.missing .typeRef))

/-- Reads the keyword of a type constraint and the type after it. -/
def typeConstraint : Rule :=
  .seq .take typeOrVariable

/-- Reads a player with its optional role. -/
def rolePlayer : Rule :=
  .node .rolePlayer
    (.seq (.branch (next .label) (.seq typeRef (expect .colon .colon)) .skip)
      (expect .var .var))

/-- A role player starts with its role or its variable. -/
def startsRolePlayer : Kind → Bool :=
  oneOf [.var, .label]

/-- Reads the role players of a relation with their brackets; the first one absent ends them. -/
def relation : Rule :=
  .node .relation (inOrder [
    .take,
    .branch (nextIs startsRolePlayer)
      (inOrder [
        rolePlayer,
        .many (nextThen .comma startsRolePlayer) (.seq .take rolePlayer),
        .branch (next .comma) (.seq .take (.missing .rolePlayer)) .skip])
      (.missing .rolePlayer),
    expect .rparen .closeParen])

/-- Reads the attribute after `has`, with its optional value. -/
def ownedAttribute : Rule :=
  .branch (next .label)
    (.seq typeRef
      (.branch (nextIs (oneOf [.var, .stringLiteral, .numberLiteral])) .take .skip))
    (.branch (next .var) .take (.missing .attributeType))

/-- Reads a constraint on a thing. -/
def thingConstraint : Rule :=
  .branch (next .kwIsa) (.seq .take typeOrVariable)
    (.branch (next .kwHas) (.seq .take ownedAttribute)
      (.branch (next .kwLinks)
        (.seq .take (.branch (next .lparen) relation (.missing .openParen)))
        .skip))

/-! ## Statements and patterns -/

/-- Reads a variable and what is said of the thing it stands for. -/
def statementThing : Rule :=
  .node .statementThing (.seq .take (constraints Kind.isThingConstraint thingConstraint))

/-- Reads a variable or a type and what is said of the type. -/
def statementType : Rule :=
  .node .statementType
    (.seq (.branch (next .var) .take typeRef) (constraints Kind.isTypeConstraint typeConstraint))

/-- Reads variables and the expression assigned to them. -/
def statementAssignment : Rule :=
  .node .statementAssignment (inOrder [
    .take, variableList, expectThen .assign .assign (.nested .expression)])

/-- The next tokens are the subject of a statement about a thing. -/
def startsThing (mode : Mode) : Test :=
  match mode with
  | .writing => next .var
  | .reading => nextThen .var Kind.isThingConstraint

/-- Reads a statement. A variable alone leaves open whether a thing or a type is meant. -/
def statement (mode : Mode) : Rule :=
  .node .statement
    (.branch (next .kwLet) statementAssignment
      (.branch (startsThing mode) statementThing
        (.branch (nextThen .var Kind.isTypeConstraint) statementType
          (.branch (next .var)
            (.seq .take (.many (next .label) .stray))
            statementType))))

/-- Reads a block in braces. -/
def blockBody (mode : Mode) : Rule :=
  .branch (next .lbrace) (.nested (.block mode)) (.missing .openBrace)

/-- Reads a keyword and the block it governs. -/
def keywordBlock (kind : Kind) (mode : Mode) : Rule :=
  .node kind (.seq .take (blockBody mode))

/-- Reads a block as a pattern. -/
def conjunction (mode : Mode) : Rule :=
  .node .patternConjunction (blockBody mode)

/-- Reads a pattern: a negation, an attempt, blocks joined by `or`, or a statement. -/
def pattern (mode : Mode) : Rule :=
  .branch (next .kwNot) (keywordBlock .patternNegation mode)
    (.branch (next .kwTry) (keywordBlock .patternTry mode)
      (.branch (next .lbrace)
        (.joined (conjunction mode) (next .kwOr) .patternDisjunction
          (.many (next .kwOr) (.seq .take (conjunction mode))))
        (statement mode)))

/-- A pattern starts with a token of one of these kinds. -/
def startsPattern : Kind → Bool :=
  oneOf [.var, .label, .kwLet, .kwNot, .kwTry, .lbrace]

/-- Recovers from everything in front of the next start of an item, or of a recovery point. -/
def recoverUntil (starts : Kind → Bool) : Rule :=
  .many (nextIs fun k => !isRecoveryPoint k && !starts k) .recover

/-- Reads patterns with their separators, up to a recovery point. -/
def patterns (mode : Mode) : Rule :=
  .many (nextIs (!isRecoveryPoint ·))
    (.branch (nextIs startsPattern) (.seq (pattern mode) separator) .recover)

/-- Reads the patterns in braces. -/
def block (mode : Mode) : Rule :=
  inOrder [.take, patterns mode, expect .rbrace .closeBrace]

/-- The rules of the productions that may contain themselves. -/
def definitionOf : Symbol → Rule
  | .block mode => block mode
  | .expression => expression

/-! ## Stages -/

/-- Reads a clause, which needs one pattern at least. -/
def clause (kind : Kind) (mode : Mode) : Rule :=
  .node kind (inOrder [
    .take,
    recoverUntil startsPattern,
    .branch (nextIs startsPattern) (patterns mode) (.missing .pattern)])

/-- Reads the variables to keep. -/
def stageSelect : Rule :=
  .node .stageSelect (inOrder [.take, variableList, expect .semicolon .semicolon])

/-- Reads the variables to sort by, each with its optional direction. -/
def stageSort : Rule :=
  .node .stageSort (inOrder [
    .take,
    commaSeparated (.seq (expect .var .var)
      (.branch (nextIs (oneOf [.kwAsc, .kwDesc])) .take .skip)),
    expect .semicolon .semicolon])

/-- Reads a number of answers to keep or to pass over. -/
def stageCount (kind : Kind) : Rule :=
  .node kind (inOrder [
    .take, expect .numberLiteral .number, expect .semicolon .semicolon])

/-- Reads the variables to reduce to, each with its expression. -/
def stageReduce : Rule :=
  .node .stageReduce (inOrder [
    .take,
    commaSeparated (.seq (expect .var .var)
      (expectThen .assign .assign (.nested .expression))),
    expect .semicolon .semicolon])

/-- Reads the stage that the next keyword opens. -/
def stage : Rule :=
  .branch (next .kwMatch) (clause .clauseMatch .reading)
    (.branch (next .kwInsert) (clause .clauseInsert .writing)
      (.branch (next .kwDelete) (clause .clauseDelete .writing)
        (.branch (next .kwUpdate) (clause .clauseUpdate .writing)
          (.branch (next .kwPut) (clause .clausePut .writing)
            (.branch (next .kwSelect) stageSelect
              (.branch (next .kwSort) stageSort
                (.branch (next .kwLimit) (stageCount .stageLimit)
                  (.branch (next .kwOffset) (stageCount .stageOffset)
                    (.branch (next .kwReduce) stageReduce .recover)))))))))

/-- Reads stages as long as a keyword opens one. -/
def stages : Rule :=
  .many (nextIs Kind.isStageKeyword) stage

/-! ## Schema definitions -/

/-- Reads a type with its optional root kind and its constraints. -/
def definable : Rule :=
  .node .definable (inOrder [
    optional .rootKind,
    expect .label .typeLabel,
    constraints Kind.isTypeConstraint (.node .typeConstraint typeConstraint)])

/-- Reads a parameter with its type. -/
def parameter : Rule :=
  .seq .take (expectThen .colon .colon namedType)

/-- Reads the parameters in brackets; a comma may end them. -/
def functionParams : Rule :=
  .node .functionParams (expectThen .lparen .openParen (inOrder [
    .branch (next .var)
      (inOrder [
        parameter,
        .many (nextThen .comma (· == .var)) (.seq .take parameter),
        optional .comma])
      .skip,
    expect .rparen .closeParen]))

/-- Reads the types of the results, optionally in braces. -/
def returnTypes : Rule :=
  .branch (next .lbrace)
    (inOrder [.take, commaSeparated namedType, expect .rbrace .closeBrace])
    (commaSeparated namedType)

/-- Reads what a function returns. -/
def functionReturn : Rule :=
  .node .functionReturn (inOrder [
    .take,
    optional .label,
    .branch (next .lbrace) (inOrder [.take, variableList, expect .rbrace .closeBrace]) variableList,
    expect .semicolon .semicolon])

/-- Reads a function. -/
def function : Rule :=
  .node .function (inOrder [
    .take,
    expect .label .functionName,
    functionParams,
    expectThen .arrow .arrow returnTypes,
    expect .colon .colon,
    stages,
    .branch (next .kwReturn) functionReturn (.missing .returnKeyword)])

/-! ## Queries -/

/-- A definition starts with a token of one of these kinds. -/
def startsDefinition : Kind → Bool :=
  oneOf [.rootKind, .label, .kwFun]

/-- Reads definitions with their separators, up to a recovery point. -/
def definitions : Rule :=
  .many (nextIs fun k => startsDefinition k || !isRecoveryPoint k)
    (.branch (nextIs (oneOf [.rootKind, .label])) (.seq definable separator)
      (.branch (next .kwFun) function .recover))

/-- Reads a schema query, which needs one definition at least. -/
def querySchema : Rule :=
  .node .querySchema (inOrder [
    .take,
    recoverUntil startsDefinition,
    .branch (nextIs startsDefinition) definitions (.missing .definition)])

/-- Reads the stages of a pipeline. -/
def queryPipeline : Rule :=
  .node .queryPipeline stages

/-- Reads a query with its optional end. -/
def query : Rule :=
  .node .query
    (.seq (.branch (nextIs Kind.isSchemaKeyword) querySchema queryPipeline)
      (.branch (next .kwEnd) (.seq .take (expect .semicolon .semicolon)) .skip))

/-- Reads all queries of a document. -/
def queries : Rule :=
  .many (nextIs fun _ => true)
    (.branch (nextIs fun k => k.isSchemaKeyword || k.isStageKeyword) query .recover)

/-- What the tokens of a document of `eof` bytes are read as. -/
def readDocument (eof : Nat) (tokens : List Token) : Parsed :=
  queries.run eof (runSymbol definitionOf eof maxNesting) tokens

end Grammar

end TypeqlAssist

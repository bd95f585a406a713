import TypeqlAssist.Proofs.Grammar.Guards

/-!
# The placement of nodes in documents

Every production of the grammar is reached only in front of tokens that it can start with, so all
nodes of a document are seated: no unrecognised token stands outside an error node, no production
is without children, and the keywords of stages and schema queries stand in front of these. The
lemmas follow the productions from the smallest to the whole document, which also ends with no
token left.
-/

namespace TypeqlAssist

namespace Grammar

open TypeqlAssist.Tree

/-- What stands in front of a symbol where the grammar asks for it. -/
def opening : Symbol → Front
  | .block _ => (next .lbrace · = true)
  | .expression => anything

/-- The productions one level further down leave the end of the tokens and place their nodes. -/
structure Guarded (inner : Symbol → List Token → Parsed) : Prop where
  suffix : ∀ s ts, (inner s ts).rest <:+ ts
  places : ∀ s, Places (opening s) (inner s)
  fills : ∀ s, Fills (opening s) (inner s)

variable {eof : Nat} {inner : Symbol → List Token → Parsed} {pre : Front} {k : Kind}
  {wanted : Wanted} {p : Rule} {mode : Mode} {A : Kind → Bool}

/-- The keywords of type constraints open no production. -/
lemma isPlain_of_isTypeConstraint (k : Kind) : k.isTypeConstraint = true → k.isPlain = true := by
  cases k <;> decide

/-- The keywords of constraints on things open no production. -/
lemma isPlain_of_isThingConstraint (k : Kind) : k.isThingConstraint = true → k.isPlain = true := by
  cases k <;> decide

/-! ## Small rules -/

/-- A token that may be absent is seated where it is read. -/
lemma optional_places (hk : k.isPlain = true) : Places pre ((optional k).run eof inner) :=
  .branch (places_take (opens_next hk).right) places_skip

/-- An expected token is seated, and so is the gap where it is absent. -/
lemma expect_places (hk : k.isPlain = true) : Places pre ((expect k wanted).run eof inner) :=
  .branch (places_take (opens_next hk).right) places_missing

/-- An expected token leaves a node in any case, a leaf or a gap. -/
lemma expect_fills (hk : k.isPlain = true) : Fills pre ((expect k wanted).run eof inner) :=
  .branch (fills_take (opens_next hk).right) fills_missing

/-- What is expected behind a token is read only where the token is. -/
lemma expectThen_places (hk : k.isPlain = true) (hp : Places anything (p.run eof inner)) :
    Places pre ((expectThen k wanted p).run eof inner) :=
  .branch (.takeThen (opens_next hk).right hp.of_anything) places_missing

/-- What is expected behind a token leaves a leaf in front of it, or a gap. -/
lemma expectThen_fills (hk : k.isPlain = true) : Fills pre ((expectThen k wanted p).run eof inner) :=
  .branch (.seq_left (fills_take (opens_next hk).right)) fills_missing

/-- A type reference may stand where a known token is next. -/
lemma typeRef_places (h : Opens Kind.isPlain pre) : Places pre (typeRef.run eof inner) := by
  refine .node (by decide) (.takeThen h ?_) (.seq_left (fills_take h))
  refine .branch (.takeThen (opens_nextThen (by decide)).right ?_) places_skip
  exact places_take (opens_after_nextThen rfl).after_right

/-- A named type is a type reference or a gap. -/
lemma namedType_places : Places pre (namedType.run eof inner) :=
  .branch (typeRef_places (opens_next (by decide)).right) places_missing

/-- What stands for a type is a reference, a variable or a gap. -/
lemma typeOrVariable_places : Places pre (typeOrVariable.run eof inner) := by
  refine .branch (typeRef_places (opens_oneOf (by decide)).right) ?_
  exact .branch (places_take (opens_next (by decide)).right) places_missing

/-- A type constraint may stand where its keyword is next. -/
lemma typeConstraint_places (h : Opens Kind.isPlain pre) :
    Places pre (typeConstraint.run eof inner) :=
  .takeThen h typeOrVariable_places

/-- A separator skips no recovery point, so it wraps no keyword of a production. -/
lemma separator_places : Places pre (separator.run eof inner) :=
  .branch (places_take (opens_next (by decide)).right)
    (.branch (places_recover avoids_recovery.right) places_missing)

section

variable (g : Guarded inner)
include g

/-- Recovery stops in front of every keyword that opens a production. -/
lemma recoverUntil_places {starts : Kind → Bool} :
    Places pre ((recoverUntil starts).run eof inner) := by
  refine .many g.suffix (places_recover (avoids_nextIs fun k hk => ?_))
  obtain ⟨hk, _⟩ := Bool.and_eq_true_iff.mp hk
  exact opened?_of_isRecoveryPoint (Bool.not_eq_true' _ ▸ hk)

/-- A list is placed as its items are, for a comma may stand anywhere. -/
lemma commaSeparated_places (hp : Places anything (p.run eof inner)) :
    Places pre ((commaSeparated p).run eof inner) := by
  apply Places.seq g.suffix hp.of_anything
  exact .many g.suffix (.takeThen (opens_next (by decide)) hp.of_anything)

/-- A list of variables holds variables, commas and gaps. -/
lemma variableList_places : Places pre (variableList.run eof inner) :=
  commaSeparated_places g (expect_places (by decide))

/-! ## Expressions -/

/-- A function call may stand where its name and bracket are next. -/
lemma functionCall_places (h : Opens Kind.isPlain pre)
    (h' : Opens Kind.isPlain (After pre)) :
    Places pre (functionCall.run eof inner) := by
  refine .node (by decide) (.takeThen h (.takeThen h' ?_)) (.seq_left (fills_take h))
  refine .seq g.suffix (.branch places_skip ?_) (expect_places (by decide))
  exact commaSeparated_places g (g.places .expression)

/-- Each kind of operand is read only where it starts. -/
lemma operand_places : Places pre (operand.run eof inner) := by
  refine .branch (places_take (opens_oneOf (by decide)).right) ?_
  refine .branch ?_ ?_
  · exact functionCall_places g (opens_nextThen (by decide)).right
      (opens_after_nextThen rfl).after_right
  refine .branch (places_take (opens_next (by decide)).right) ?_
  refine .branch ?_ places_missing
  have h {pre : Front} : Opens Kind.isPlain fun l => pre l ∧ next .lparen l = true :=
    (opens_next rfl).right
  refine .node (by decide) (.takeThen h ?_) (.seq_left (fills_take h))
  exact .seq g.suffix (g.places .expression).of_anything (expect_places (by decide))

omit g in
/-- An operand leaves a node in any case, a gap at least. -/
lemma operand_fills : Fills pre (operand.run eof inner) := by
  refine .branch (fills_take (A := Kind.isPlain) (opens_oneOf (by decide)).right) ?_
  refine .branch fills_node ?_
  refine .branch (fills_take (A := Kind.isPlain) (opens_next rfl).right) ?_
  exact .branch fills_node fills_missing

/-- An expression has a node for its first operand. -/
lemma expression_places : Places pre (expression.run eof inner) := by
  refine .node (by decide) (.seq g.suffix (operand_places g) ?_) (.seq_left operand_fills)
  exact .many g.suffix (.takeThen (opens_next (by decide)) (operand_places g))

/-! ## Constraints -/

/-- One turn in reading constraints. -/
def constraintTurn (accepts : Kind → Bool) (constraint : Rule) : Rule :=
  .branch (next .comma)
    (.seq .take
      (.branch (nextIs fun k => accepts k || k == .label) .skip (.missing .constraint)))
    (.branch (nextIs accepts) constraint .stray)

/-- Constraints are placed if each is where its test passes, for commas and labels are plain. -/
lemma constraints_places {accepts : Kind → Bool} (ha : ∀ k, accepts k = true → k.isPlain = true)
    (hp : Places (nextIs accepts · = true) (p.run eof inner)) :
    Places pre ((constraints accepts p).run eof inner) := by
  have turn : Opens Kind.isPlain
      (nextIs (fun k => k == .comma || accepts k || k == .label) · = true) := by
    refine opens_nextIs fun k hk => ?_
    rw [Bool.or_eq_true, Bool.or_eq_true] at hk
    rcases hk with (hk | hk) | hk
    · exact eq_of_beq hk ▸ rfl
    · exact ha k hk
    · exact eq_of_beq hk ▸ rfl
  refine .many g.suffix (.branch ?_ (.branch (hp.mono fun _ hl => hl.2) ?_))
  · exact .takeThen (opens_next (by decide)).right (.branch places_skip places_missing)
  · exact places_stray turn.avoids.left.left

/-- A role player has a node for its variable, a gap at least. -/
lemma rolePlayer_places : Places pre (rolePlayer.run eof inner) := by
  refine .node (by decide) (.seq g.suffix ?_ (expect_places (by decide)))
    (.seq_right (expect_fills (by decide)))
  refine .branch (.seq g.suffix ?_ (expect_places (by decide))) places_skip
  exact typeRef_places (opens_next (by decide)).right

/-- A relation may stand where its bracket is next. -/
lemma relation_places (h : Opens Kind.isPlain pre) : Places pre (relation.run eof inner) := by
  refine .node (by decide) (.takeThen h ?_) (.seq_left (fills_take h))
  refine .seq g.suffix (.branch ?_ places_missing) (expect_places (by decide))
  refine .seq g.suffix (rolePlayer_places g) (.seq g.suffix ?_ (.branch ?_ places_skip))
  · exact .many g.suffix (.takeThen (opens_nextThen (by decide)) (rolePlayer_places g))
  · exact .takeThen (opens_next (by decide)).right places_missing

/-- The attribute of a thing is a type reference, a variable or a gap. -/
lemma ownedAttribute_places : Places pre (ownedAttribute.run eof inner) := by
  refine .branch (.seq g.suffix ?_ (.branch ?_ places_skip)) (.branch ?_ places_missing)
  · exact typeRef_places (opens_next (by decide)).right
  · exact places_take (opens_oneOf (by decide)).right
  · exact places_take (opens_next (by decide)).right

/-- A constraint on a thing reads its keyword before anything else. -/
lemma thingConstraint_places : Places pre (thingConstraint.run eof inner) := by
  refine .branch (.takeThen (opens_next (by decide)).right typeOrVariable_places) ?_
  refine .branch (.takeThen (opens_next (by decide)).right (ownedAttribute_places g)) ?_
  refine .branch (.takeThen (opens_next (by decide)).right ?_) places_skip
  exact .branch (relation_places g (opens_next (by decide)).right) places_missing

/-! ## Statements and patterns -/

/-- A statement about a thing may stand where its variable is next. -/
lemma statementThing_places (h : Opens Kind.isPlain pre) :
    Places pre (statementThing.run eof inner) := by
  refine .node (by decide) (.takeThen h ?_) (.seq_left (fills_take h))
  exact constraints_places g isPlain_of_isThingConstraint (thingConstraint_places g)

/-- A statement about a type may stand where its subject is next. -/
lemma statementType_places (h : Opens Kind.isPlain pre) :
    Places pre (statementType.run eof inner) := by
  refine .node (by decide) (.seq g.suffix ?_ ?_) (.seq_left ?_)
  · exact .branch (places_take h.left) (typeRef_places h.left)
  · exact constraints_places g isPlain_of_isTypeConstraint
      (typeConstraint_places (opens_nextIs isPlain_of_isTypeConstraint))
  · exact .branch (fills_take h.left) fills_node

/-- An assignment may stand where its keyword is next. -/
lemma statementAssignment_places (h : Opens Kind.isPlain pre) :
    Places pre (statementAssignment.run eof inner) := by
  refine .node (by decide) (.takeThen h ?_) (.seq_left (fills_take h))
  exact .seq g.suffix (variableList_places g)
    (expectThen_places (by decide) (g.places .expression))

/-- A statement may stand where a known token is next. -/
lemma statement_places (h : Opens Kind.isPlain pre) :
    Places pre ((statement mode).run eof inner) := by
  refine .node (by decide) ?_ ?_
  · refine .branch (statementAssignment_places g h.left) ?_
    refine .branch (statementThing_places g h.left.left) ?_
    refine .branch (statementType_places g h.left.left.left) ?_
    refine .branch (.takeThen h.left.left.left.left ?_) (statementType_places g h.left.left.left.left)
    exact .many g.suffix (places_stray (opens_next rfl).avoids)
  · refine .branch fills_node (.branch fills_node (.branch fills_node ?_))
    exact .branch (.seq_left (fills_take h.left.left.left.left)) fills_node

omit g in
/-- A block behind a keyword leaves a node in any case, a gap at least. -/
lemma blockBody_fills (g : Guarded inner) : Fills pre ((blockBody mode).run eof inner) :=
  .branch ((g.fills (.block mode)).mono fun _ hl => hl.2) fills_missing

/-- A block behind a keyword is read only where its brace is. -/
lemma blockBody_places : Places pre ((blockBody mode).run eof inner) :=
  .branch ((g.places (.block mode)).mono fun _ hl => hl.2) places_missing

/-- A keyword and its block may stand where a plain token is next. -/
lemma keywordBlock_places (hk : k ≠ .error ∧ k.isOpened = false) (h : Opens Kind.isPlain pre) :
    Places pre ((keywordBlock k mode).run eof inner) :=
  .node hk (.takeThen h (blockBody_places g)) (.seq_left (fills_take h))

/-- A block as a pattern has a node for the block. -/
lemma conjunction_places : Places pre ((conjunction mode).run eof inner) :=
  .node (by decide) (blockBody_places g) (blockBody_fills g)

/-- A pattern may stand where a known token is next. -/
lemma pattern_places (h : Opens Kind.isPlain pre) : Places pre ((pattern mode).run eof inner) := by
  refine .branch (keywordBlock_places g (by decide) h.left) ?_
  refine .branch (keywordBlock_places g (by decide) h.left.left) ?_
  refine .branch ?_ (statement_places g h.left.left.left)
  refine .joined g.suffix (by decide) (conjunction_places g) fills_node ?_
  exact .many g.suffix (.takeThen (opens_next (by decide)) (conjunction_places g))

/-- Patterns are read where one starts, and all else up to a recovery point is skipped. -/
lemma patterns_places : Places pre ((patterns mode).run eof inner) := by
  refine .many g.suffix (.branch (.seq g.suffix ?_ separator_places) ?_)
  · exact pattern_places g (opens_oneOf (by decide)).right
  · exact places_recover avoids_recovery.left

/-- A block may stand where its brace is next. -/
lemma block_places (h : Opens Kind.isPlain pre) : Places pre ((block mode).run eof inner) :=
  .takeThen h (.seq g.suffix (patterns_places g) (expect_places (by decide)))

/-- The productions that may contain themselves are guarded, whatever they contain. -/
lemma definitionOf_places (s : Symbol) :
    Places (opening s) ((definitionOf s).run eof inner) := by
  cases s with
  | block mode => exact block_places g (opens_next (by decide))
  | expression => exact expression_places g

omit g in
/-- Where a symbol is asked for, its rule makes a node. -/
lemma definitionOf_fills (s : Symbol) : Fills (opening s) ((definitionOf s).run eof inner) := by
  cases s with
  | block mode => exact .seq_left (fills_take (A := Kind.isPlain) (opens_next rfl))
  | expression => exact fills_node

end

/-- Symbols are guarded with any number of levels left. -/
lemma runSymbol_guarded (eof levels : Nat) : Guarded (runSymbol definitionOf eof levels) := by
  induction levels with
  | zero =>
    refine ⟨runSymbol_suffix _ _, fun _ ts _ width => ?_, fun _ _ _ => nofun⟩
    exact seated_wrapped width (opened?_take_lengthBeforeStop ts)
  | succ levels ih => exact ⟨runSymbol_suffix _ _, definitionOf_places ih, definitionOf_fills⟩

section

variable (g : Guarded inner)
include g

/-! ## Stages -/

/-- A clause may stand where the keyword that opens it is next. -/
lemma clause_places (h : Opens (·.opened? == some k) pre) :
    Places pre ((clause k mode).run eof inner) := by
  refine .opened h (.seq g.suffix (recoverUntil_places g) ?_)
  exact .branch (patterns_places g) places_missing

/-- A selection may stand where its keyword is next. -/
lemma stageSelect_places (h : Opens (·.opened? == some .stageSelect) pre) :
    Places pre (stageSelect.run eof inner) := by
  refine .opened h ?_
  exact .seq g.suffix (variableList_places g) (expect_places (by decide))

/-- A sort may stand where its keyword is next. -/
lemma stageSort_places (h : Opens (·.opened? == some .stageSort) pre) :
    Places pre (stageSort.run eof inner) := by
  refine .opened h ?_
  refine .seq g.suffix (commaSeparated_places g ?_) (expect_places (by decide))
  refine .seq g.suffix (expect_places (by decide)) (.branch ?_ places_skip)
  exact places_take (opens_oneOf (by decide)).right

/-- A number of answers may stand where the keyword that opens its stage is next. -/
lemma stageCount_places (h : Opens (·.opened? == some k) pre) :
    Places pre ((stageCount k).run eof inner) := by
  refine .opened h ?_
  exact .seq g.suffix (expect_places (by decide)) (expect_places (by decide))

/-- A reduction may stand where its keyword is next. -/
lemma stageReduce_places (h : Opens (·.opened? == some .stageReduce) pre) :
    Places pre (stageReduce.run eof inner) := by
  refine .opened h ?_
  refine .seq g.suffix (commaSeparated_places g ?_) (expect_places (by decide))
  refine .seq g.suffix (expect_places (by decide)) ?_
  exact expectThen_places (by decide) (g.places .expression)

omit g in
/-- A keyword of a stage is one of those that a stage is chosen by. -/
lemma stage_avoids (ht : ∀ l, pre l → nextIs Kind.isStageKeyword l = true) :
    Avoids fun l => pre l ∧ ∀ k, k.isStageKeyword = true → next k l = false := by
  rintro l ⟨hl, other⟩ k e
  obtain ⟨k', e', hk⟩ := nextIs_iff.mp (ht l hl)
  have same := other k' hk
  rw [next, e', beq_self_eq_true] at same
  cases same

/-- The keyword of a stage decides which one is read, so it stands at the start of its own. -/
lemma stage_places (ht : ∀ l, pre l → nextIs Kind.isStageKeyword l = true) :
    Places pre (stage.run eof inner) := by
  refine .branch (clause_places g (opens_next rfl).right) ?_
  refine .branch (clause_places g (opens_next rfl).right) ?_
  refine .branch (clause_places g (opens_next rfl).right) ?_
  refine .branch (clause_places g (opens_next rfl).right) ?_
  refine .branch (clause_places g (opens_next rfl).right) ?_
  refine .branch (stageSelect_places g (opens_next rfl).right) ?_
  refine .branch (stageSort_places g (opens_next rfl).right) ?_
  refine .branch (stageCount_places g (opens_next rfl).right) ?_
  refine .branch (stageCount_places g (opens_next rfl).right) ?_
  refine .branch (stageReduce_places g (opens_next rfl).right) (places_recover ?_)
  refine (stage_avoids ht).mono ?_
  rintro l ⟨⟨⟨⟨⟨⟨⟨⟨⟨⟨hl, h1⟩, h2⟩, h3⟩, h4⟩, h5⟩, h6⟩, h7⟩, h8⟩, h9⟩, h10⟩
  refine ⟨hl, fun k hk => ?_⟩
  cases k <;> first | assumption | cases hk

/-- Stages are read only in front of their keywords. -/
lemma stages_places : Places pre (stages.run eof inner) :=
  .many g.suffix (stage_places g fun _ hl => hl)

/-! ## Schema definitions -/

/-- A definition has a node for its label, a gap at least. -/
lemma definable_places : Places pre (definable.run eof inner) := by
  refine .node (by decide) (.seq g.suffix (optional_places (by decide)) ?_)
    (.seq_right (.seq_left (expect_fills (by decide))))
  refine .seq g.suffix (expect_places (by decide)) (constraints_places g isPlain_of_isTypeConstraint ?_)
  have h := opens_nextIs isPlain_of_isTypeConstraint
  exact .node (by decide) (typeConstraint_places h) (.seq_left (fills_take h))

/-- Parameters have a node for their bracket, a gap at least. -/
lemma functionParams_places : Places pre (functionParams.run eof inner) := by
  have parameter {pre : Front} (h : Opens Kind.isPlain pre) : Places pre (parameter.run eof inner) :=
    .takeThen h (expectThen_places (by decide) namedType_places)
  refine .node (by decide) (expectThen_places (by decide) ?_) (expectThen_fills (by decide))
  refine .seq g.suffix (.branch ?_ places_skip) (expect_places (by decide))
  refine .seq g.suffix (parameter (opens_next (by decide)).right) ?_
  refine .seq g.suffix (.many g.suffix ?_) (optional_places (by decide))
  exact .takeThen (opens_nextThen (by decide)) (parameter (opens_after_nextThen rfl))

/-- The types of results are type references and gaps, with commas and braces. -/
lemma returnTypes_places : Places pre (returnTypes.run eof inner) := by
  refine .branch (.takeThen (opens_next (by decide)).right ?_)
    (commaSeparated_places g namedType_places)
  exact .seq g.suffix (commaSeparated_places g namedType_places) (expect_places (by decide))

/-- A return may stand where its keyword is next. -/
lemma functionReturn_places (h : Opens Kind.isPlain pre) :
    Places pre (functionReturn.run eof inner) := by
  refine .node (by decide) (.takeThen h ?_) (.seq_left (fills_take h))
  refine .seq g.suffix (optional_places (by decide)) ?_
  refine .seq g.suffix (.branch ?_ (variableList_places g)) (expect_places (by decide))
  refine .takeThen (opens_next (by decide)).right ?_
  exact .seq g.suffix (variableList_places g) (expect_places (by decide))

/-- A function may stand where its keyword is next. -/
lemma function_places (h : Opens Kind.isPlain pre) : Places pre (function.run eof inner) := by
  refine .node (by decide) (.takeThen h ?_) (.seq_left (fills_take h))
  refine .seq g.suffix (expect_places (by decide)) ?_
  refine .seq g.suffix (functionParams_places g) ?_
  refine .seq g.suffix (expectThen_places (by decide) (returnTypes_places g)) ?_
  refine .seq g.suffix (expect_places (by decide)) ?_
  refine .seq g.suffix (stages_places g) ?_
  exact .branch (functionReturn_places g (opens_next (by decide)).right) places_missing

/-! ## Queries -/

/-- A schema query may stand where the keyword that opens it is next. -/
lemma querySchema_places (h : Opens (·.opened? == some .querySchema) pre) :
    Places pre (querySchema.run eof inner) := by
  refine .opened h (.seq g.suffix (recoverUntil_places g) (.branch ?_ places_missing))
  refine .many g.suffix (.branch (.seq g.suffix (definable_places g) separator_places) ?_)
  refine .branch (function_places g (opens_next (by decide)).right) (places_recover ?_)
  refine Tells.left (Tells.left (avoids_nextIs fun k => ?_))
  cases k <;> decide

omit g in
/-- Where a token is next, a stage makes a node, an error at least. -/
lemma stage_fills (h : Opens A pre) : Fills pre (stage.run eof inner) := by
  refine .branch fills_node (.branch fills_node (.branch fills_node (.branch fills_node ?_)))
  refine .branch fills_node (.branch fills_node (.branch fills_node (.branch fills_node ?_)))
  refine .branch fills_node (.branch fills_node (fills_recover (A := A) ?_))
  exact h.mono fun _ hl => hl.1.1.1.1.1.1.1.1.1.1

/-- A pipeline may stand where the keyword of its first stage is next. -/
lemma queryPipeline_places (ht : ∀ l, pre l → nextIs Kind.isStageKeyword l = true) :
    Places pre (queryPipeline.run eof inner) := by
  have h : Opens Kind.isStageKeyword pre := (opens_nextIs fun _ hk => hk).mono ht
  exact .node (by decide) (stages_places g) (.many ht h (stage_fills h))

omit g in
/-- What opens a query and is no keyword of a schema is the keyword of a stage. -/
lemma isStageKeyword_of_query {l : Lookahead}
    (h : nextIs (fun k => k.isSchemaKeyword || k.isStageKeyword) l = true)
    (h' : nextIs Kind.isSchemaKeyword l = false) : nextIs Kind.isStageKeyword l = true := by
  obtain ⟨first, second⟩ := l
  cases first <;> simp_all [nextIs]

/-- A query may stand where a keyword that opens one is next. -/
lemma query_places
    (ht : ∀ l, pre l → nextIs (fun k => k.isSchemaKeyword || k.isStageKeyword) l = true) :
    Places pre (query.run eof inner) := by
  refine .node (by decide) (.seq g.suffix (.branch ?_ ?_) ?_) (.seq_left ?_)
  · refine querySchema_places g (Tells.right (opens_nextIs fun k => ?_))
    cases k <;> decide
  · exact queryPipeline_places g fun l hl => isStageKeyword_of_query (ht l hl.1) hl.2
  · refine .branch (.takeThen (opens_next (by decide)).right ?_) places_skip
    exact expect_places (by decide)
  · exact .branch fills_node fills_node

/-- Queries are read in front of their keywords, and all else is skipped. -/
lemma queries_places : Places pre (queries.run eof inner) := by
  refine .many g.suffix (.branch (query_places g fun _ hl => hl.2) (places_recover ?_))
  rintro l ⟨_, other⟩ k e
  rw [nextIs, e, Option.any_some] at other
  cases k <;> first | rfl | cases other

/-! ## The end of a document -/

/-- A production that starts with a known token reads it. -/
lemma node_consumes (h : Opens A pre) :
    Consumes pre ((Rule.node k (.seq .take p)).run eof inner) :=
  .node (.seq_left g.suffix (consumes_take h))

/-- Where a token is next, a stage reads it. -/
lemma stage_consumes (h : Opens A pre) : Consumes pre (stage.run eof inner) := by
  have next (k : Kind) {pre : Front} : Opens (k == ·) fun l => pre l ∧ next k l = true :=
    (opens_next (beq_self_eq_true k)).right
  refine .branch (node_consumes g (next _)) ?_
  refine .branch (node_consumes g (next _)) ?_
  refine .branch (node_consumes g (next _)) ?_
  refine .branch (node_consumes g (next _)) ?_
  refine .branch (node_consumes g (next _)) ?_
  refine .branch (node_consumes g (next _)) ?_
  refine .branch (node_consumes g (next _)) ?_
  refine .branch (node_consumes g (next _)) ?_
  refine .branch (node_consumes g (next _)) ?_
  refine .branch (node_consumes g (next _)) (consumes_recover (A := A) ?_)
  exact h.mono fun l hl => hl.1.1.1.1.1.1.1.1.1.1

/-- A query reads the keyword that opens it. -/
lemma query_consumes
    (ht : ∀ l, pre l → nextIs (fun k => k.isSchemaKeyword || k.isStageKeyword) l = true) :
    Consumes pre (query.run eof inner) := by
  refine .node (.seq_left g.suffix (.branch ?_ (.node ?_)))
  · exact node_consumes g (opens_nextIs fun _ hk => hk).right
  · have keyword := fun l (hl : pre l ∧ nextIs Kind.isSchemaKeyword l = false) =>
      isStageKeyword_of_query (ht l hl.1) hl.2
    have h := Tells.mono (opens_nextIs fun _ hk => hk) keyword
    exact .many g.suffix keyword h (stage_consumes g h)

/-- Each turn of a document reads a query, or recovers. -/
lemma turn_consumes : Consumes (nextIs (fun _ => true) · = true) ((Rule.branch
    (nextIs fun k => k.isSchemaKeyword || k.isStageKeyword) query .recover).run eof inner) :=
  .branch (query_consumes g fun _ hl => hl.2) (consumes_recover (opens_nextIs fun _ hk => hk).left)

/-- The queries of a document leave no token. -/
lemma queries_rest (ts : List Token) : (queries.run eof inner ts).rest = [] := by
  have stops : nextIs (fun _ => true) (.of (queries.run eof inner ts).rest) = false :=
    (turn_consumes g).many_stops ts
  cases h : (queries.run eof inner ts).rest with
  | nil => rfl
  | cons t us => rw [h] at stops; cases stops

end

/-- Every node of a document is seated. -/
theorem readDocument_seated (eof : Nat) {ts : List Token} (width : ∀ t ∈ ts, t.start < t.stop) :
    ∀ n ∈ (readDocument eof ts).nodes, Seated n := by
  have places : Places anything (queries.run eof (runSymbol definitionOf eof maxNesting)) :=
    queries_places (runSymbol_guarded eof maxNesting)
  exact places ts trivial width

/-- Every node of a document is well placed. -/
theorem readDocument_placed (eof : Nat) {ts : List Token} (width : ∀ t ∈ ts, t.start < t.stop) :
    ∀ n ∈ (readDocument eof ts).nodes, Placed n :=
  fun n hn => (readDocument_seated eof width n hn).placed

/-- A document is read to its end. -/
theorem readDocument_rest (eof : Nat) (ts : List Token) : (readDocument eof ts).rest = [] :=
  queries_rest (runSymbol_guarded eof maxNesting) ts

end Grammar

end TypeqlAssist

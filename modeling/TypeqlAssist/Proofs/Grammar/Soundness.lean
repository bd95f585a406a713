import TypeqlAssist.Proofs.Grammar.Yielding

/-!
# What is accepted is derivable

The kinds that a production of the grammar accepts make up the phrase it is meant for. The lemmas
follow the productions from the smallest to the whole document.
-/

namespace TypeqlAssist

namespace Grammar

/-- The symbols one level further down accept their phrases only. -/
def Sound (n : Nat) (inner : Symbol → List Kind → Option (List Kind)) : Prop :=
  ∀ s, Yields n (opening s) (inner s) (.nested s)

variable {n : Nat} {pre : Front} {inner : Symbol → List Kind → Option (List Kind)} {p : Rule}
  {a c : Phrase} {k : Kind} {ks : List Kind} {wanted : Wanted} {mode : Mode}
  {accepts : Kind → Bool}

/-! ## Small rules -/

/-- What is accepted where a token is expected is the token. -/
lemma expect_yields : Yields n pre ((expect k wanted).accept inner) (.token k) :=
  .branch (yields_take heads_next.right) yields_missing

/-- What is accepted where a token may be absent is the token or nothing. -/
lemma optional_yields : Yields n pre ((optional k).accept inner) (.maybe (.token k)) :=
  .branch (.left (yields_take heads_next.right)) (.right yields_skip)

/-- What is accepted behind an expected token comes after the token. -/
lemma expectThen_yields (hp : Yields n anything (p.accept inner) a) :
    Yields n pre ((expectThen k wanted p).accept inner) (.seq (.token k) a) :=
  .branch (.takeThen heads_next.right hp.of_anything) yields_missing

/-- A list accepts what its items do, with commas between. -/
lemma commaSeparated_yields (hp : Yields n anything (p.accept inner) a) :
    Yields n pre ((commaSeparated p).accept inner) (.separated a) :=
  .seq hp.of_anything (.many (.takeThen heads_next hp.of_anything))

/-- A list of variables accepts variables with commas between. -/
lemma variableList_yields : Yields n pre (variableList.accept inner) .variableList :=
  commaSeparated_yields expect_yields

/-- A type reference is made up of the kind that is next and of its role. -/
lemma typeRef_yields (h : Heads pre ks) : Yields n pre (typeRef.accept inner) (.reference ks) := by
  refine .takeThen h (.branch (.left (.takeThen heads_nextThen.right ?_)) (.right yields_skip))
  exact yields_take heads_after_nextThen.after_right

/-- A named type accepts a label with its role. -/
lemma namedType_yields : Yields n pre (namedType.accept inner) .labelRef :=
  .branch (typeRef_yields heads_next.right) yields_missing

/-- What stands for a type is accepted as a reference or as a variable. -/
lemma typeOrVariable_yields : Yields n pre (typeOrVariable.accept inner) .typeOrVariable := by
  refine .branch (.left (typeRef_yields heads_oneOf.right)) ?_
  exact .branch (.right (yields_take heads_next.right)) yields_missing

/-- Of the ways out of a separator, only the semicolon is accepted. -/
lemma separator_yields : Yields n pre (separator.accept inner) (.token .semicolon) := by
  refine .branch (yields_take heads_next.right) (.branch (yields_recover ?_) yields_missing)
  exact fun _ hl => ne_none_of_nextIs hl.2

/-- What is recovered from in front of an item is not accepted. -/
lemma recoverUntil_yields {starts : Kind → Bool} :
    Yields n pre ((recoverUntil starts).accept inner) .empty :=
  yields_many_empty (yields_recover fun _ hl => ne_none_of_nextIs hl)

/-! ## Expressions -/

section

variable (g : Sound n inner)
include g

/-- In front of a name and a bracket, a call accepts its arguments and the closing bracket. -/
lemma functionCall_yields (h : Heads pre [.label]) (h' : Heads (After pre) [.lparen]) :
    Yields n pre (functionCall.accept inner)
      (.row [.token .label, .token .lparen, .maybe (.separated (.nested .expression)),
        .token .rparen]) := by
  refine .takeThen h (.takeThen h' (.seq ?_ expect_yields))
  exact .branch (.right yields_skip) (.left (commaSeparated_yields (g .expression)))

/-- Each kind of operand is one of the choices of its phrase. -/
lemma operand_yields : Yields n pre (operand.accept inner) .operand := by
  refine .branch (.left (yields_take (heads_oneOf.subset (by simp)).right)) ?_
  refine .branch (.right (.left ?_)) ?_
  · exact functionCall_yields g heads_nextThen.right heads_after_nextThen.after_right
  refine .branch (.left (yields_take (heads_next.subset (by simp)).right)) ?_
  refine .branch (.right (.right (.takeThen heads_next.right ?_))) yields_missing
  exact .seq (g .expression).of_anything expect_yields

/-- An expression accepts operands with operators between. -/
lemma expression_yields : Yields n pre (expression.accept inner) .expression :=
  .seq (operand_yields g) (.many (.takeThen heads_next (operand_yields g)))

end

/-! ## Constraints -/

/-- Accepts constraints in a number of turns at most. -/
def acceptConstraints (accepts : Kind → Bool) (constraint : Rule)
    (inner : Symbol → List Kind → Option (List Kind)) :
    (fuel : Nat) → List Kind → Option (List Kind) :=
  acceptWhile (nextIs fun k => k == .comma || accepts k || k == .label)
    fun ks => (constraintTurn accepts constraint).accept inner ks

/-- A turn reads a comma that a constraint or a label comes after, or a constraint. -/
lemma constraintTurn_cases {ks rest : List Kind} (ne : ks ≠ [])
    (e : (constraintTurn accepts p).accept inner ks = some rest) :
    (ks = .comma :: rest ∧ nextIs (fun k => accepts k || k == .label) (.ofKinds rest) = true) ∨
      (nextIs accepts (.ofKinds ks) = true ∧ p.accept inner ks = some rest) := by
  rw [constraintTurn, Rule.accept_branch] at e
  split at e
  next comma =>
    obtain ⟨k, hk, ms, rfl⟩ := heads_next.exists_cons comma
    obtain rfl := List.mem_singleton.mp hk
    change (if _ then _ else none) = some rest at e
    split at e
    · cases e; exact .inl ⟨rfl, ‹_›⟩
    · cases e
  next =>
    rw [Rule.accept_branch] at e
    split at e
    · exact .inr ⟨‹_›, e⟩
    · rw [Rule.accept_stray, List.isEmpty_eq_false_iff.mpr ne] at e
      cases e

/--
A comma takes a turn of its own, so what a turn adds to the phrase depends on the turn before: a
loop that starts behind a comma goes on with a constraint.
-/
lemma constraints_loop (comma : accepts .comma = false)
    (hp : Yields n (nextIs accepts · = true) (p.accept inner) c)
    (hc : ¬ Derives Phrase.body n c []) {fuel : Nat} {ks rest : List Kind}
    (enough : ks.length ≤ fuel)
    (e : acceptConstraints accepts p inner fuel ks = some rest) :
    ∃ w, ks = w ++ rest ∧ Derives Phrase.body n (.constraints c) w ∧
      (nextIs (fun k => accepts k || k == .label) (.ofKinds ks) = true →
        Derives Phrase.body n (.seq c (.constraints c)) w) := by
  -- every turn reads a kind, so the fuel is at least the number of kinds that are left
  induction fuel generalizing ks with
  | zero =>
    obtain rfl := List.eq_nil_of_length_eq_zero (Nat.le_zero.mp enough)
    cases e
    exact ⟨[], rfl, .none, nofun⟩
  | succ fuel ih =>
    rw [acceptConstraints, acceptWhile_succ] at e
    split at e
    next pass =>
      obtain ⟨mid, et, er⟩ := Option.bind_eq_some_iff.mp e
      have ne : ks ≠ [] := by rintro rfl; cases pass
      -- a turn reads a comma alone, in front of a constraint, or a constraint
      obtain ⟨rfl, behind⟩ | ⟨hk, ep⟩ := constraintTurn_cases ne et
      · obtain ⟨w, rfl, -, first⟩ := ih (Nat.le_of_succ_le_succ enough) er
        obtain ⟨u, v, rfl, hu, hv⟩ := derives_seq.mp (first behind)
        refine ⟨.comma :: (u ++ v), rfl, .more (.seq (.left (.word (.head []))) hu) hv, ?_⟩
        simp [nextIs, Lookahead.ofKinds, comma]
      · obtain ⟨u, rfl, hu⟩ := hp ks mid hk ep
        have some := hu.length_pos hc
        have shorter : mid.length ≤ fuel := by
          rw [List.length_append] at enough
          omega
        obtain ⟨v, rfl, hv, -⟩ := ih shorter er
        refine ⟨u ++ v, (List.append_assoc ..).symm, ?_, fun _ => .seq hu hv⟩
        exact .more (.seq (.right .empty) hu) hv
    next fail =>
      cases e
      refine ⟨[], rfl, .none, ?_⟩
      intro pass
      obtain ⟨k, e, hk⟩ := nextIs_iff.mp pass
      refine absurd (nextIs_iff.mpr ⟨k, e, ?_⟩) fail
      rw [Bool.or_assoc, hk, Bool.or_true]

section

variable (comma : accepts .comma = false) (hp : Yields n (nextIs accepts · = true) (p.accept inner) c)
  (hc : ¬ Derives Phrase.body n c [])
include comma hp hc

/-- Of what may stand among constraints, only constraints and their commas are accepted. -/
lemma constraints_yields :
    Yields n pre ((constraints accepts p).accept inner) (.constraints c) := by
  intro ks rest _ e
  obtain ⟨w, eq, hw, -⟩ := constraints_loop comma hp hc (Nat.le_refl _) e
  exact ⟨w, eq, hw⟩

/-- In front of a constraint the first one comes without a comma. -/
lemma constraints_yields_first :
    Yields n (nextIs accepts · = true) ((constraints accepts p).accept inner)
      (.seq c (.constraints c)) := by
  intro ks rest hl e
  obtain ⟨w, eq, -, first⟩ := constraints_loop comma hp hc (Nat.le_refl _) e
  obtain ⟨k, next, hk⟩ := nextIs_iff.mp hl
  exact ⟨w, eq, first (nextIs_iff.mpr ⟨k, next, by rw [hk, Bool.true_or]⟩)⟩

end

/-- In front of its keyword, a type constraint accepts the keyword and a type. -/
lemma typeConstraint_yields :
    Yields n (nextIs Kind.isTypeConstraint · = true) (typeConstraint.accept inner)
      .typeConstraint :=
  .takeThen heads_isTypeConstraint typeOrVariable_yields

/-- A role player accepts a variable, and in front of it a role with its colon. -/
lemma rolePlayer_yields : Yields n pre (rolePlayer.accept inner) .rolePlayer := by
  refine .seq (.branch (.left ?_) (.right yields_skip)) expect_yields
  exact .seq (typeRef_yields heads_next.right) expect_yields

/-- The comma that no player comes after is a fault, so only commas between players are accepted. -/
lemma relation_yields (h : Heads pre [.lparen]) :
    Yields n pre (relation.accept inner)
      (.row [.token .lparen, .separated .rolePlayer, .token .rparen]) := by
  refine .takeThen h (.seq (.branch (.seq rolePlayer_yields (.thenEmpty ?_ ?_)) yields_missing)
    expect_yields)
  · exact .many (.takeThen heads_nextThen rolePlayer_yields)
  · exact .branch (fun _ _ _ e => nomatch e) yields_skip

/-- The attribute of a thing accepts a type with a value, or a variable. -/
lemma ownedAttribute_yields : Yields n pre (ownedAttribute.accept inner) .ownedAttribute := by
  refine .branch (.left (.seq (typeRef_yields heads_next.right) ?_)) ?_
  · exact .branch (.left (yields_take heads_oneOf.right)) (.right yields_skip)
  · exact .branch (.right (yields_take heads_next.right)) yields_missing

/-- In front of its keyword, a constraint on a thing accepts what belongs to the keyword. -/
lemma thingConstraint_yields :
    Yields n (nextIs Kind.isThingConstraint · = true) (thingConstraint.accept inner)
      .thingConstraint := by
  refine .branch (.left (.takeThen heads_next.right typeOrVariable_yields)) ?_
  refine .branch (.right (.left (.takeThen heads_next.right ownedAttribute_yields))) ?_
  refine .branch (.right (.right (.takeThen heads_next.right ?_))) ?_
  · exact .branch (relation_yields heads_next.right) yields_missing
  · exact yields_of_heads_nil heads_isThingConstraint.without.without.without

/-- A type is said what its constraints say. -/
lemma typeConstraints_yields :
    Yields n pre ((constraints Kind.isTypeConstraint typeConstraint).accept inner)
      (.constraints .typeConstraint) :=
  constraints_yields rfl typeConstraint_yields starts_typeConstraint.not_nil

/-- A thing is said what its constraints say. -/
lemma thingConstraints_yields :
    Yields n pre ((constraints Kind.isThingConstraint thingConstraint).accept inner)
      (.constraints .thingConstraint) :=
  constraints_yields rfl thingConstraint_yields starts_thingConstraint.not_nil

/-! ## Statements and patterns -/

/-- A variable in front of a constraint is the subject of a statement about types. -/
lemma statementType_yields_var :
    Yields n (nextThen .var Kind.isTypeConstraint · = true) (statementType.accept inner)
      (.row [.token .var, .typeConstraint, .constraints .typeConstraint]) := by
  -- as a sequence the rule would forget the second kind, so it is read as the token that it takes
  have read : Yields n (nextThen .var Kind.isTypeConstraint · = true)
      ((Rule.seq .take (constraints Kind.isTypeConstraint typeConstraint)).accept inner)
      (.row [.token .var, .typeConstraint, .constraints .typeConstraint]) := by
    refine .takeThen heads_nextThen (Yields.mono ?_ fun _ => nextIs_of_after)
    exact constraints_yields_first rfl typeConstraint_yields starts_typeConstraint.not_nil
  intro ks rest hl e
  obtain ⟨k, hk, ms, rfl⟩ := heads_nextThen.exists_cons hl
  obtain rfl := List.mem_singleton.mp hk
  exact read _ rest hl e

/-- In front of a label, a statement about a type accepts a reference and constraints. -/
lemma statementType_yields_label (h : Heads pre [.label]) :
    Yields n pre (statementType.accept inner)
      (.seq .labelRef (.constraints .typeConstraint)) := by
  refine .seq (.branch (yields_of_heads_nil ?_) (typeRef_yields h.left)) typeConstraints_yields
  rintro l ⟨hl, var⟩
  obtain ⟨k, hk, e⟩ := h l hl
  rw [next, e, List.mem_singleton.mp hk] at var
  cases var

/-- A statement about a thing is one about the subject that its test has found. -/
lemma subject_yields_thing :
    Yields n (startsThing mode · = true) (statementThing.accept inner) (.subject mode) := by
  cases mode with
  | writing => exact .takeThen heads_next thingConstraints_yields
  | reading =>
    refine .right (.left (.takeThen heads_nextThen (Yields.mono ?_ fun _ => nextIs_of_after)))
    exact constraints_yields_first rfl thingConstraint_yields starts_thingConstraint.not_nil

-- Where something is written every variable is a thing, so that the next two cannot be reached.

/-- A statement about a type after a variable is one about a subject. -/
lemma subject_yields_type :
    Yields n (fun l => startsThing mode l = false ∧ nextThen .var Kind.isTypeConstraint l = true)
      (statementType.accept inner) (.subject mode) := by
  cases mode with
  | writing => exact yields_of_heads_nil heads_nextThen.absurd
  | reading => exact .right (.right (statementType_yields_var.mono fun _ hl => hl.2))

/-- A variable alone is a subject of which nothing is said. -/
lemma subject_yields_var :
    Yields n (fun l => startsThing mode l = false ∧ next .var l = true)
      ((Rule.seq .take (.many (next .label) .stray)).accept inner) (.subject mode) := by
  cases mode with
  | writing => exact yields_of_heads_nil heads_next.absurd
  | reading =>
    refine .left (.thenEmpty (yields_take heads_next.right) (yields_many_empty ?_))
    exact yields_stray fun _ => heads_next.ne_none

section

variable (g : Sound n inner)
include g

/-- In front of `let`, an assignment accepts variables and the expression assigned to them. -/
lemma statementAssignment_yields (h : Heads pre [.kwLet]) :
    Yields n pre (statementAssignment.accept inner)
      (.row [.token .kwLet, .variableList, .token .assign, .nested .expression]) :=
  .takeThen h (.seq variableList_yields (expectThen_yields (g .expression)))

/-- What starts with a variable, a label or `let` and is accepted as a statement is a pattern. -/
lemma statement_yields (h : Heads pre [.var, .label, .kwLet]) :
    Yields n pre ((statement mode).accept inner) (.pattern mode) := by
  refine .branch (.right (.right (.left ?_))) ?_
  · exact statementAssignment_yields g heads_next.right
  have label : Heads (fun l => (((pre l ∧ next .kwLet l = false) ∧ startsThing mode l = false) ∧
      nextThen .var Kind.isTypeConstraint l = false) ∧ next .var l = false) [.label] :=
    Heads.without (h.without.left.left : Heads _ _)
  refine .branch (.right (.right (.right (.right ?_)))) (.branch ?_ (.branch ?_ ?_))
  · exact subject_yields_thing.mono fun _ hl => hl.2
  · refine .right (.right (.right (.right (subject_yields_type.mono ?_))))
    exact fun _ hl => ⟨hl.1.2, hl.2⟩
  · refine .right (.right (.right (.right (subject_yields_var.mono ?_))))
    exact fun _ hl => ⟨hl.1.1.2, hl.2⟩
  · exact .right (.right (.right (.left (statementType_yields_label label))))

/-- What is accepted where a block is wanted is a block. -/
lemma blockBody_yields : Yields n pre ((blockBody mode).accept inner) (.nested (.block mode)) :=
  .branch ((g (.block mode)).mono fun _ hl => hl.2) yields_missing

/-- A keyword and its block are accepted together. -/
lemma keywordBlock_yields (h : Heads pre ks) :
    Yields n pre ((keywordBlock k mode).accept inner) (.seq (.word ks) (.nested (.block mode))) :=
  .takeThen h (blockBody_yields g)

/-- Where a pattern starts, what is accepted as one is one. -/
lemma pattern_yields (h : Heads pre [.var, .label, .kwLet, .kwNot, .kwTry, .lbrace]) :
    Yields n pre ((pattern mode).accept inner) (.pattern mode) := by
  refine .branch (.left (keywordBlock_yields g (heads_next.subset (by simp)).right)) ?_
  refine .branch (.left (keywordBlock_yields g (heads_next.subset (by simp)).right)) ?_
  refine .branch (.right (.left ?_)) (statement_yields g h.without.without.without)
  refine .joined (blockBody_yields g) ?_
  exact .many (.takeThen heads_next (blockBody_yields g))

/-- A turn in reading patterns accepts a pattern with its semicolon. -/
lemma patternTurn_yields :
    Yields n (nextIs (!isRecoveryPoint ·) · = true)
      ((Rule.branch (nextIs startsPattern) (.seq (pattern mode) separator) .recover).accept inner)
      (.patternEnd mode) := by
  refine .branch (.seq (pattern_yields g heads_oneOf.right) separator_yields) (yields_recover ?_)
  exact fun _ hl => ne_none_of_nextIs hl.1

/-- Patterns are accepted with their semicolons, any number of them. -/
lemma patterns_yields : Yields n pre ((patterns mode).accept inner) (.star (.patternEnd mode)) :=
  .many (patternTurn_yields g)

/-- In front of a pattern there is at least one. -/
lemma patterns_yields_plus :
    Yields n (nextIs startsPattern · = true) ((patterns mode).accept inner)
      (.plus (.patternEnd mode)) := by
  refine .many_plus ?_ (fun _ => ne_none_of_nextIs) (patternTurn_yields g)
  intro l hl
  obtain ⟨k, hk, e⟩ := heads_oneOf l hl
  have none : ∀ k ∈ [Kind.var, .label, .kwLet, .kwNot, .kwTry, .lbrace],
    (!isRecoveryPoint k) = true := by decide
  exact nextIs_iff.mpr ⟨k, e, none k hk⟩

/-- In front of its brace, a block accepts patterns up to the closing brace. -/
lemma block_yields (h : Heads pre [.lbrace]) :
    Yields n pre ((block mode).accept inner) (.block mode) :=
  .takeThen h (.seq (patterns_yields g) expect_yields)

/-- A symbol accepts its phrase if those one level further down do. -/
lemma definitionOf_yields (s : Symbol) :
    Yields n (opening s) ((definitionOf s).accept inner) (Phrase.body s) := by
  cases s with
  | block mode => exact block_yields g heads_next
  | expression => exact expression_yields g

end

/-- Symbols accept their phrases only, with any number of levels left. -/
lemma acceptSymbol_sound (levels : Nat) : Sound levels (acceptSymbol definitionOf levels) := by
  induction levels with
  | zero => exact fun _ _ _ _ e => nomatch e
  | succ levels ih =>
    intro s ks rest hl e
    obtain ⟨w, eq, hw⟩ := definitionOf_yields ih s ks rest hl e
    exact ⟨w, eq, .nested hw⟩

/-! ## Stages -/

section

variable (g : Sound n inner)
include g

/-- A clause accepts its keyword and at least one pattern. -/
lemma clause_yields (h : Heads pre ks) :
    Yields n pre ((clause k mode).accept inner)
      (.seq (.word ks) (.plus (.patternEnd mode))) := by
  refine .takeThen h (.emptyThen recoverUntil_yields (.branch ?_ yields_missing))
  exact (patterns_yields_plus g).mono fun _ hl => hl.2

omit g in
/-- A selection accepts variables and a semicolon. -/
lemma stageSelect_yields (h : Heads pre [.kwSelect]) :
    Yields n pre (stageSelect.accept inner)
      (.row [.token .kwSelect, .variableList, .token .semicolon]) :=
  .takeThen h (.seq variableList_yields expect_yields)

omit g in
/-- A sort accepts variables with their directions and a semicolon. -/
lemma stageSort_yields (h : Heads pre [.kwSort]) :
    Yields n pre (stageSort.accept inner)
      (.row [.token .kwSort, .separated .sortKey, .token .semicolon]) := by
  refine .takeThen h (.seq (commaSeparated_yields (.seq expect_yields ?_)) expect_yields)
  exact .branch (.left (yields_take heads_oneOf.right)) (.right yields_skip)

omit g in
/-- A stage with a number accepts the number and a semicolon. -/
lemma stageCount_yields (h : Heads pre ks) :
    Yields n pre ((stageCount k).accept inner)
      (.row [.word ks, .token .numberLiteral, .token .semicolon]) :=
  .takeThen h (.seq expect_yields expect_yields)

/-- A reduction accepts variables with their expressions and a semicolon. -/
lemma stageReduce_yields (h : Heads pre [.kwReduce]) :
    Yields n pre (stageReduce.accept inner)
      (.row [.token .kwReduce, .separated .reduction, .token .semicolon]) := by
  refine .takeThen h (.seq (commaSeparated_yields (.seq expect_yields ?_)) expect_yields)
  exact expectThen_yields (g .expression)

/-- In front of the keyword of a stage, a stage accepts that stage. -/
lemma stage_yields : Yields n (nextIs Kind.isStageKeyword · = true) (stage.accept inner) .stage := by
  have written {k : Kind} {pre : Front} (hk : k ∈ [Kind.kwInsert, .kwDelete, .kwUpdate, .kwPut]) :
      Heads (fun l => pre l ∧ next k l = true) [.kwInsert, .kwDelete, .kwUpdate, .kwPut] :=
    (heads_next.subset (by simpa using hk)).right
  refine .branch (.left (clause_yields g heads_next.right)) ?_
  refine .branch (.right (.left (clause_yields g (written (by decide))))) ?_
  refine .branch (.right (.left (clause_yields g (written (by decide))))) ?_
  refine .branch (.right (.left (clause_yields g (written (by decide))))) ?_
  refine .branch (.right (.left (clause_yields g (written (by decide))))) ?_
  refine .branch (.right (.right (.left (stageSelect_yields heads_next.right)))) ?_
  refine .branch (.right (.right (.right (.left (stageSort_yields heads_next.right))))) ?_
  refine .branch (.right (.right (.right (.right (.left (stageCount_yields ?_)))))) ?_
  · exact (heads_next.subset (by simp)).right
  refine .branch (.right (.right (.right (.right (.left (stageCount_yields ?_)))))) ?_
  · exact (heads_next.subset (by simp)).right
  refine .branch (.right (.right (.right (.right (.right ?_))))) (yields_recover ?_)
  · exact stageReduce_yields g heads_next.right
  · exact fun _ hl => ne_none_of_nextIs hl.1.1.1.1.1.1.1.1.1.1

/-- Stages are accepted any number of times. -/
lemma stages_yields : Yields n pre (stages.accept inner) (.star .stage) :=
  .many (stage_yields g)

/-! ## Schema definitions -/

omit g in
/-- A definition accepts a label, perhaps behind a root kind, and constraints. -/
lemma definable_yields : Yields n pre (definable.accept inner) .definable := by
  refine .seq optional_yields (.seq expect_yields ?_)
  exact constraints_yields rfl typeConstraint_yields starts_typeConstraint.not_nil

omit g in
/-- In front of a variable, a parameter accepts the variable and its type. -/
lemma parameter_yields (h : Heads pre [.var]) : Yields n pre (parameter.accept inner) .parameter :=
  .takeThen h (expectThen_yields namedType_yields)

omit g in
/-- Parameters are accepted in brackets, with a comma behind the last one or without. -/
lemma functionParams_yields : Yields n pre (functionParams.accept inner) .parameters := by
  refine expectThen_yields (.seq (Yields.imp ?_ fun _ => derives_listed.mpr) expect_yields)
  refine .branch (.left (.seq (parameter_yields heads_next.right) ?_)) (.right yields_skip)
  refine .seq (.many (.takeThen heads_nextThen ?_)) optional_yields
  exact parameter_yields heads_after_nextThen

omit g in
/-- The types of results are accepted in braces or without them. -/
lemma returnTypes_yields : Yields n pre (returnTypes.accept inner) .returnTypes := by
  refine .branch (.left (.takeThen heads_next.right ?_))
    (.right (commaSeparated_yields namedType_yields))
  exact .seq (commaSeparated_yields namedType_yields) expect_yields

omit g in
/-- A return accepts its variables and a semicolon. -/
lemma functionReturn_yields (h : Heads pre [.kwReturn]) :
    Yields n pre (functionReturn.accept inner) .returned := by
  refine .takeThen h (.seq optional_yields (.seq (.branch (.left ?_) ?_) expect_yields))
  · exact .takeThen heads_next.right (.seq variableList_yields expect_yields)
  · exact .right variableList_yields

/-- In front of its keyword, a function accepts its parts in their order. -/
lemma function_yields (h : Heads pre [.kwFun]) : Yields n pre (function.accept inner) .function := by
  refine .takeThen h (.seq expect_yields (.seq functionParams_yields ?_))
  refine .seq (expectThen_yields returnTypes_yields) (.seq expect_yields ?_)
  refine .seq (stages_yields g) (.branch ?_ yields_missing)
  exact functionReturn_yields heads_next.right

/-! ## Queries -/

/-- In front of a definition there is at least one. -/
lemma definitions_yields :
    Yields n (nextIs startsDefinition · = true) (definitions.accept inner)
      (.plus .definition) := by
  refine .many_plus ?_ (fun _ => ne_none_of_nextIs) (.branch ?_ (.branch ?_ (yields_recover ?_)))
  · intro l hl
    obtain ⟨k, e, hk⟩ := nextIs_iff.mp hl
    exact nextIs_iff.mpr ⟨k, e, by rw [hk, Bool.true_or]⟩
  · exact .left (.seq definable_yields separator_yields)
  · exact .right (function_yields g heads_next.right)
  · exact fun _ hl => ne_none_of_nextIs hl.1.1

/-- A schema query accepts its keyword and at least one definition. -/
lemma querySchema_yields (h : Heads pre [.kwDefine, .kwRedefine, .kwUndefine]) :
    Yields n pre (querySchema.accept inner) .schema := by
  refine .takeThen h (.emptyThen recoverUntil_yields (.branch ?_ yields_missing))
  exact (definitions_yields g).mono fun _ hl => hl.2

/-- In front of the keyword of a stage, a pipeline accepts at least one stage. -/
lemma queryPipeline_yields :
    Yields n (nextIs Kind.isStageKeyword · = true) (queryPipeline.accept inner) (.plus .stage) :=
  Yields.many_plus (fun _ hl => hl) (fun _ => ne_none_of_nextIs) (stage_yields g)

/-- In front of a keyword that opens one, a query is accepted with its end or without. -/
lemma query_yields :
    Yields n (nextIs (fun k => k.isSchemaKeyword || k.isStageKeyword) · = true)
      (query.accept inner) .query := by
  refine .seq (.branch (.left ?_) (.right ?_)) (.branch (.left ?_) (.right yields_skip))
  · exact querySchema_yields g heads_isSchemaKeyword.right
  · exact (queryPipeline_yields g).mono fun _ hl => isStageKeyword_of_query hl.1 hl.2
  · exact .takeThen heads_next.right expect_yields

/-- Queries are accepted any number of times, and nothing else. -/
lemma queries_yields : Yields n pre (queries.accept inner) .source := by
  refine .many (.branch ((query_yields g).mono fun _ hl => hl.2) (yields_recover ?_))
  exact fun _ hl => ne_none_of_nextIs hl.1

end

/-- The kinds of a document without a fault make up a document of the grammar. -/
theorem acceptQueries_sound {ks : List Kind} (h : acceptQueries ks = some []) :
    Derives Phrase.body maxNesting .source ks := by
  have yields : Yields maxNesting anything acceptQueries .source :=
    queries_yields (acceptSymbol_sound maxNesting)
  obtain ⟨w, rfl, hw⟩ := yields ks [] trivial h
  rw [List.append_nil]
  exact hw

end Grammar

end TypeqlAssist

import TypeqlAssist.Proofs.Grammar.Progress

/-!
# The cost of reading

A token that is read pays for ten nodes. `Costs pre c read` says that in front of a lookahead a
reader makes no more nodes than its tokens pay for and `c` more, where `c` is negative if something
is left of the payment. Rules make nodes without reading anything, one for each thing that is
absent, but every turn of a loop pays for itself; so a document has at most ten nodes for each of
its tokens.
-/

namespace TypeqlAssist

namespace Tree

/-- Leaves are as many nodes as tokens. -/
lemma sizeAll_leaves (ts : List Token) : sizeAll (ts.map leaf) = ts.length := by
  rw [← length_preorderAll, preorderAll_leaves, List.length_map]

end Tree

namespace Grammar

open TypeqlAssist.Tree

/-- In front of tokens that satisfy a condition, the nodes cost what the tokens pay, and `c`. -/
def Costs (pre : Front) (c : Int) : (List Token → Parsed) → Prop :=
  Ensures pre fun ts a => (sizeAll a.nodes : Int) + 10 * a.rest.length ≤ 10 * ts.length + c

variable {eof : Nat} {inner : Symbol → List Token → Parsed} {pre pre' : Front} {c d : Int}
  {read : List Token → Parsed} {p q : Rule} {test : Test} {k : Kind} {wanted : Wanted}
  {mode : Mode} {A : Kind → Bool}

/-! ## Rules -/

/-- What costs no more than `c` costs no more than anything above it. -/
lemma Costs.le (le : c ≤ d) (h : Costs pre c read) : Costs pre d read := by
  intro ts hl
  have cost := h ts hl
  omega

/-- Where nothing is read, nothing is made. -/
lemma costs_skip : Costs pre 0 (Rule.skip.run eof inner) := by
  intro ts _
  simp [Rule.run, sizeAll]

/-- A token pays for its leaf. -/
lemma costs_take (h : Opens A pre) : Costs pre (-9) (Rule.take.run eof inner) := by
  intro ts hl
  obtain ⟨t, us, rfl, _⟩ := h.exists_cons hl
  have leaf : sizeAll [leaf t] = 1 := rfl
  simp only [Rule.run, leaf, List.length_cons]
  omega

/-- Where no token is left, nothing is read and nothing is made. -/
lemma costs_take_any : Costs pre 0 (Rule.take.run eof inner) := by
  intro ts _
  cases ts with
  | nil => simp [Rule.run, sizeAll]
  | cons t ts =>
    have leaf : sizeAll [leaf t] = 1 := rfl
    simp only [Rule.run, leaf, List.length_cons]
    omega

/-- A gap is one node that no token pays for. -/
lemma costs_missing : Costs pre 1 ((Rule.missing wanted).run eof inner) := by
  intro ts _
  have one (a b : Nat) : sizeAll [node .error a b []] = 1 := rfl
  simp only [Rule.run, absent, one]
  omega

/-- A node costs one more than its children. -/
lemma sizeAll_enclosed (eof : Nat) (k : Kind) (offset : Nat) (cs : List Tree) (rest : List Token) :
    sizeAll [enclosed eof k offset cs rest] = sizeAll cs + 1 := rfl

/-- An error node and the leaves in it are one node more than the tokens they take. -/
lemma wrapped_cost (eof : Nat) (cause : Cause) (n : Nat) (ts : List Token) :
    sizeAll (wrapped eof cause n ts).nodes + (wrapped eof cause n ts).rest.length =
      ts.length + 1 := by
  rw [wrapped, sizeAll_enclosed, sizeAll_leaves, List.length_take, List.length_drop]
  omega

/-- An error node over a token is paid for. -/
lemma costs_stray (h : Opens A pre) : Costs pre (-8) (Rule.stray.run eof inner) := by
  intro ts hl
  have some : (Rule.stray.run eof inner ts).rest.length < ts.length := consumes_stray h ts hl
  obtain ⟨t, us, rfl, _⟩ := h.exists_cons hl
  have cost := wrapped_cost eof .unexpected 1 (t :: us)
  simp only [Rule.run] at some ⊢
  omega

/-- Recovery takes a token, which pays for its leaf and for the error node around it. -/
lemma costs_recover (h : Opens A pre) : Costs pre (-8) (Rule.recover.run eof inner) := by
  intro ts hl
  have some : (Rule.recover.run eof inner ts).rest.length < ts.length := consumes_recover h ts hl
  obtain ⟨t, us, rfl, _⟩ := h.exists_cons hl
  have cost := wrapped_cost eof .unexpected (recoveryLength (t :: us)) (t :: us)
  simp only [Rule.run] at some ⊢
  omega

/-- One rule after another costs what both do. -/
lemma Costs.seq (hp : Costs pre c (p.run eof inner)) (hq : Costs anything d (q.run eof inner)) :
    Costs pre (c + d) ((Rule.seq p q).run eof inner) := by
  intro ts hl
  have first := hp ts hl
  have second := hq (p.run eof inner ts).rest trivial
  simp only [Rule.run, Parsed.followedBy, sizeAll_append]
  omega

/-- A node around what is read is one node more. -/
lemma Costs.node (hp : Costs pre c (p.run eof inner)) :
    Costs pre (c + 1) ((Rule.node k p).run eof inner) := by
  intro ts hl
  have cost := hp ts hl
  simp only [Rule.run, sizeAll_enclosed]
  omega

/-- A branch costs what the dearer of its rules does. -/
lemma Costs.branch (hp : Costs (fun l => pre l ∧ test l = true) c (p.run eof inner))
    (hq : Costs (fun l => pre l ∧ test l = false) d (q.run eof inner)) :
    Costs pre (max c d) ((Rule.branch test p q).run eof inner) :=
  Ensures.branch (hp.le (Int.le_max_left c d)) (hq.le (Int.le_max_right c d))

/-- Where the test is known to pass, only the first rule is read. -/
lemma Costs.branch_pass (ht : ∀ l, pre l → test l = true) (hp : Costs pre c (p.run eof inner)) :
    Costs pre c ((Rule.branch test p q).run eof inner) := by
  intro ts hl
  rw [Rule.run, if_pos (ht _ hl)]
  exact hp ts hl

/-- An option in front of a rule: either it is read, or the rule stands in front of the same. -/
lemma Costs.branch_seq
    (hp : Costs (fun l => pre l ∧ test l = true) c ((Rule.seq p q).run eof inner))
    (hq : Costs (fun l => pre l ∧ test l = false) d (q.run eof inner)) :
    Costs pre (max c d) ((Rule.seq (.branch test p .skip) q).run eof inner) := by
  intro ts hl
  by_cases pass : test (.of ts) = true
  · have cost := hp ts ⟨hl, pass⟩
    simp only [Rule.run, if_pos pass] at cost ⊢
    omega
  · have cost := hq ts ⟨hl, Bool.eq_false_iff.mpr pass⟩
    simp only [Rule.run, if_neg pass, Parsed.followedBy, List.nil_append] at cost ⊢
    omega

/-- Repeated reading makes no more than its tokens pay for if no turn does. -/
lemma repeatWhile_cost (read : List Token → Parsed) (le : c ≤ 0) (h : Costs (test · = true) c read)
    (fuel : Nat) (ts : List Token) :
    sizeAll (repeatWhile test read fuel ts).nodes +
      10 * (repeatWhile test read fuel ts).rest.length ≤ 10 * ts.length := by
  refine repeatWhile_induction
    (motive := fun ts a => sizeAll a.nodes + 10 * a.rest.length ≤ 10 * ts.length) ?_ ?_ fuel ts
  · intro ts
    simp [sizeAll]
  · intro ts others pass ho
    have turn := h ts pass
    simp only [Parsed.followedBy, sizeAll_append]
    omega

/-- A loop costs nothing if its turns do not. -/
lemma Costs.many (le : c ≤ 0) (hp : Costs (test · = true) c (p.run eof inner)) :
    Costs pre 0 ((Rule.many test p).run eof inner) := by
  intro ts _
  have cost : sizeAll ((Rule.many test p).run eof inner ts).nodes +
      10 * ((Rule.many test p).run eof inner ts).rest.length ≤ 10 * ts.length :=
    repeatWhile_cost (fun ts => p.run eof inner ts) le hp ts.length ts
  omega

/-- What is left of the payment of the first turn is left of the whole loop. -/
lemma Costs.many_first (le : c ≤ 0) (ht : ∀ l, pre l → test l = true) (h : Opens A pre)
    (hp : Costs pre d (p.run eof inner)) (hq : Costs (test · = true) c (p.run eof inner)) :
    Costs pre d ((Rule.many test p).run eof inner) := by
  intro ts hl
  obtain ⟨t, us, rfl, _⟩ := h.exists_cons hl
  have first := hp _ hl
  have others := repeatWhile_cost (p.run eof inner) le hq us.length (p.run eof inner (t :: us)).rest
  rw [Rule.run_many_turn (ht _ hl)]
  simp only [Parsed.followedBy, sizeAll_append, List.length_cons] at first ⊢
  omega

/-- Where two rules are joined, they cost what both do, and the node around them. -/
lemma Costs.joined (hp : Costs pre c (p.run eof inner))
    (hq : Costs (test · = true) d (q.run eof inner)) :
    Costs pre (max c (c + d + 1)) ((Rule.joined p test k q).run eof inner) := by
  intro ts hl
  have first := hp ts hl
  simp only [Rule.run]
  split
  next pass =>
    have second := hq _ pass
    simp only [Parsed.followedBy, sizeAll_enclosed, sizeAll_append]
    omega
  next => omega

/-! ## Small rules -/

/-- A test on the next kind passes only where there is a token. -/
lemma found_nextIs {p : Kind → Bool} : Opens (fun _ => true) (nextIs p · = true) :=
  opens_nextIs fun _ _ => rfl

/-- A token that may be absent costs nothing. -/
lemma optional_costs : Costs pre 0 ((optional k).run eof inner) :=
  .le (by decide) (.branch (costs_take found_next.right) costs_skip)

/-- What is absent costs one node. -/
lemma expect_costs : Costs pre 1 ((expect k wanted).run eof inner) :=
  .le (by decide) (.branch (costs_take found_next.right) costs_missing)

/-- A token pays for what is expected behind it, and where it is absent there is one gap. -/
lemma expectThen_costs (le : c ≤ 10) (hp : Costs anything c (p.run eof inner)) :
    Costs pre 1 ((expectThen k wanted p).run eof inner) :=
  .le (by omega) (.branch (.seq (costs_take found_next.right) hp) costs_missing)

/-- A list costs what its first item does, for a comma pays for each of the others. -/
lemma commaSeparated_costs (le : c ≤ 9) (hp : Costs anything c (p.run eof inner)) :
    Costs pre c ((commaSeparated p).run eof inner) :=
  .le (by omega) (.seq hp.of_anything (.many (by omega) (.seq (costs_take found_next) hp)))

/-- Of a list of variables, only the first one may be a gap that nothing pays for. -/
lemma variableList_costs : Costs pre 1 (variableList.run eof inner) :=
  commaSeparated_costs (by decide) expect_costs

/-- The word of a type pays for its nodes, with eight to spare. -/
lemma typeRef_costs (h : Opens A pre) : Costs pre (-8) (typeRef.run eof inner) :=
  .le (by decide) (.node (.seq (costs_take h)
    (.branch (.seq costs_take_any costs_take_any) costs_skip)))

/-- A type that may be absent costs a gap at most. -/
lemma namedType_costs : Costs pre 1 (namedType.run eof inner) :=
  .le (by decide) (.branch (typeRef_costs found_next.right) costs_missing)

/-- A type or a variable for one costs a gap at most. -/
lemma typeOrVariable_costs : Costs pre 1 (typeOrVariable.run eof inner) :=
  .le (by decide) (.branch (typeRef_costs found_nextIs.right)
    (.branch (costs_take found_next.right) costs_missing))

/-- The keyword of a type constraint pays for all of it, with eight nodes to spare. -/
lemma typeConstraint_costs (h : Opens A pre) : Costs pre (-8) (typeConstraint.run eof inner) :=
  .le (by decide) (.seq (costs_take h) typeOrVariable_costs)

/-- A separator costs a gap at most, where it is absent and nothing can be skipped. -/
lemma separator_costs : Costs pre 1 (separator.run eof inner) :=
  .le (by decide) (.branch (costs_take found_next.right)
    (.branch (costs_recover found_nextIs.right) costs_missing))

/-- Every turn of recovery is paid for by what it skips. -/
lemma recoverUntil_costs {starts : Kind → Bool} :
    Costs pre 0 ((recoverUntil starts).run eof inner) :=
  .many (by decide) (costs_recover found_nextIs)

/-! ## What productions cost -/

/-- What a symbol costs where the grammar asks for it: a block is paid for by its brace. -/
def allowance : Symbol → Int
  | .block _ => -8
  | .expression => 2

section

variable (hi : ∀ s, Costs (opening s) (allowance s) (inner s))
include hi

/-- An expression one level further down costs two nodes at most, whatever is next. -/
lemma nestedExpression_costs : Costs pre 2 ((Rule.nested .expression).run eof inner) :=
  (hi .expression).of_anything

/-- The name of a function pays for its call, with five nodes to spare. -/
lemma functionCall_costs (h : Opens A pre) : Costs pre (-5) (functionCall.run eof inner) :=
  .le (by decide) (.node (.seq (costs_take h) (.seq costs_take_any
    (.seq (.branch costs_skip (commaSeparated_costs (by decide) (nestedExpression_costs hi)))
      expect_costs))))

/-- An operand costs a gap at most. -/
lemma operand_costs : Costs pre 1 (operand.run eof inner) := by
  have bracketed : Costs (next .lparen · = true) (-5) ((Rule.node .expression (inOrder [
      .take, .nested .expression, expect .rparen .closeParen])).run eof inner) :=
    .node (.seq (costs_take found_next) (.seq (nestedExpression_costs hi) expect_costs))
  exact .le (by decide) (.branch (costs_take found_nextIs.right)
    (.branch (functionCall_costs hi found_nextThen.right)
      (.branch (costs_take found_next.right)
        (.branch (bracketed.mono fun _ hl => hl.2) costs_missing))))

/-- An operator pays for the operand behind it. -/
lemma expression_costs : Costs pre 2 (expression.run eof inner) := by
  have again : Costs (next .operator · = true) (-8) ((Rule.seq .take operand).run eof inner) :=
    .seq (costs_take found_next) (operand_costs hi)
  exact .le (by decide) (.node (.seq (operand_costs hi) (.many (by decide) again)))

end

/-- Constraints cost nothing if none of them does. -/
lemma constraints_costs {accepts : Kind → Bool} (le : c ≤ 0)
    (hp : Costs (nextIs accepts · = true) c (p.run eof inner)) :
    Costs pre 0 ((constraints accepts p).run eof inner) := by
  refine .many ?_ (.branch (.seq (costs_take found_next.right) (.branch costs_skip costs_missing))
    (.branch (hp.mono fun _ hl => hl.2) (costs_stray found_nextIs.left.left)))
  omega

/-- A role player costs at most its own node and a gap for its variable. -/
lemma rolePlayer_costs : Costs pre 2 (rolePlayer.run eof inner) :=
  .le (by decide) (.node (.seq
    (.branch (.seq (typeRef_costs found_next.right) expect_costs) costs_skip) expect_costs))

/-- The opening bracket pays for a relation, with five nodes to spare. -/
lemma relation_costs (h : Opens A pre) : Costs pre (-5) (relation.run eof inner) := by
  have again : Costs (nextThen .comma startsRolePlayer · = true) (-7)
      ((Rule.seq .take rolePlayer).run eof inner) :=
    .seq (costs_take found_nextThen) rolePlayer_costs
  have players : Costs anything 2 ((inOrder [rolePlayer,
      .many (nextThen .comma startsRolePlayer) (.seq .take rolePlayer),
      .branch (next .comma) (.seq .take (.missing .rolePlayer)) .skip]).run eof inner) :=
    .le (by decide) (.seq rolePlayer_costs (.seq (.many (by decide) again)
      (.branch (.seq (costs_take found_next.right) costs_missing) costs_skip)))
  exact .le (by decide) (.node (.seq (costs_take h)
    (.seq (.branch players.of_anything costs_missing) expect_costs)))

/-- The attribute of a thing costs a gap at most. -/
lemma ownedAttribute_costs : Costs pre 1 (ownedAttribute.run eof inner) :=
  .le (by decide) (.branch
    (.seq (typeRef_costs found_next.right) (.branch (costs_take found_nextIs.right) costs_skip))
    (.branch (costs_take found_next.right) costs_missing))

/-- The keyword of a constraint on a thing pays for all of it, and without one nothing is read. -/
lemma thingConstraint_costs : Costs pre 0 (thingConstraint.run eof inner) :=
  .le (by decide) (.branch (.seq (costs_take found_next.right) typeOrVariable_costs)
    (.branch (.seq (costs_take found_next.right) ownedAttribute_costs)
      (.branch
        (.seq (costs_take found_next.right)
          (.branch (relation_costs found_next.right) costs_missing))
        costs_skip)))

/-- The variable of a statement about a thing pays for it, with eight nodes to spare. -/
lemma statementThing_costs (h : Opens A pre) : Costs pre (-8) (statementThing.run eof inner) :=
  .le (by decide) (.node (.seq (costs_take h)
    (constraints_costs (by decide) thingConstraint_costs)))

/-- The subject of a statement about a type pays for it, with seven nodes to spare. -/
lemma statementType_costs (h : Opens A pre) : Costs pre (-7) (statementType.run eof inner) :=
  .le (by decide) (.node (.seq (.branch (costs_take h.left) (typeRef_costs h.left))
    (constraints_costs (by decide) (typeConstraint_costs found_nextIs))))

section

variable (hi : ∀ s, Costs (opening s) (allowance s) (inner s))
include hi

/-! ### Patterns -/

/-- The keyword of an assignment pays for it, with six nodes to spare. -/
lemma statementAssignment_costs (h : Opens A pre) :
    Costs pre (-6) (statementAssignment.run eof inner) :=
  .le (by decide) (.node (.seq (costs_take h)
    (.seq variableList_costs (expectThen_costs (by decide) (nestedExpression_costs hi)))))

/-- The first token of a statement pays for it, with five nodes to spare. -/
lemma statement_costs (h : Opens A pre) : Costs pre (-5) ((statement mode).run eof inner) := by
  have alone : Costs (next .var · = true) (-9)
      ((Rule.seq .take (.many (next .label) .stray)).run eof inner) :=
    .seq (costs_take found_next) (.many (by decide) (costs_stray found_next))
  exact .le (by decide) (.node (.branch (statementAssignment_costs hi h.left)
    (.branch (statementThing_costs h.left.left)
      (.branch (statementType_costs h.left.left.left)
        (.branch (alone.mono fun _ hl => hl.2) (statementType_costs h.left.left.left.left))))))

/-- The brace in front of a block one level further down pays for it, with eight nodes to spare. -/
lemma nestedBlock_costs (ht : ∀ l, pre l → next .lbrace l = true) :
    Costs pre (-8) ((Rule.nested (.block mode)).run eof inner) :=
  (hi (.block mode)).mono ht

/-- A block behind a keyword costs a gap at most, where its brace is absent. -/
lemma blockBody_costs : Costs pre 1 ((blockBody mode).run eof inner) :=
  .le (by decide) (.branch (nestedBlock_costs hi fun _ hl => hl.2) costs_missing)

/-- The keyword in front of a block pays for both, with seven nodes to spare. -/
lemma keywordBlock_costs (h : Opens A pre) : Costs pre (-7) ((keywordBlock k mode).run eof inner) :=
  .le (by decide) (.node (.seq (costs_take h) (blockBody_costs hi)))

/-- The first token of a pattern pays for it, with five nodes to spare. -/
lemma pattern_costs (h : Opens A pre) : Costs pre (-5) ((pattern mode).run eof inner) := by
  have first : Costs (next .lbrace · = true) (-7) ((conjunction mode).run eof inner) :=
    .node (.branch_pass (fun _ hl => hl) (nestedBlock_costs hi fun _ hl => hl))
  have again : Costs (next .kwOr · = true) (-7)
      ((Rule.seq .take (conjunction mode)).run eof inner) :=
    .seq (costs_take found_next) (.node (blockBody_costs hi))
  have blocks : Costs (next .lbrace · = true) (-6)
      ((Rule.joined (conjunction mode) (next .kwOr) .patternDisjunction
        (.many (next .kwOr) (.seq .take (conjunction mode)))).run eof inner) :=
    .joined first (.many (by decide) again)
  exact .le (by decide) (.branch (keywordBlock_costs hi h.left)
    (.branch (keywordBlock_costs hi h.left.left)
      (.branch (blocks.mono fun _ hl => hl.2) (statement_costs hi h.left.left.left))))

/-- The separator of a pattern is paid for by the pattern. -/
lemma patterns_costs : Costs pre 0 ((patterns mode).run eof inner) :=
  .many (by decide) (.branch (.seq (pattern_costs hi found_nextIs.right) separator_costs)
    (costs_recover found_nextIs.left))

/-- The opening brace pays for a block, with eight nodes to spare. -/
lemma block_costs (h : Opens A pre) : Costs pre (-8) ((block mode).run eof inner) :=
  .le (by decide) (.seq (costs_take h) (.seq (patterns_costs hi) expect_costs))

/-- A symbol costs its allowance if those one level further down do. -/
lemma definitionOf_costs (s : Symbol) :
    Costs (opening s) (allowance s) ((definitionOf s).run eof inner) := by
  cases s with
  | block mode => exact block_costs hi found_next
  | expression => exact expression_costs hi

end

/-- A brace is part of what is cut off. -/
lemma cutOff_consumes (eof : Nat) : Consumes (next .lbrace · = true) (cutOff eof) := by
  intro ts hl
  obtain ⟨t, us, rfl, _⟩ := found_next.exists_cons hl
  have brace : t.kind = .lbrace := Option.some.inj (eq_of_beq hl)
  have rest : (cutOff eof (t :: us)).rest = us.drop (lengthBeforeStop us) := by
    rw [cutOff, wrapped, lengthBeforeStop, brace]
    rfl
  rw [rest, List.length_drop, List.length_cons]
  omega

/-- Symbols cost no more than they are allowed, with any number of levels left. -/
lemma runSymbol_costs (eof levels : Nat) (s : Symbol) :
    Costs (opening s) (allowance s) (runSymbol definitionOf eof levels s) := by
  induction levels generalizing s with
  | zero =>
    intro ts hl
    have cost : sizeAll (cutOff eof ts).nodes + (cutOff eof ts).rest.length = ts.length + 1 :=
      wrapped_cost ..
    have le : (cutOff eof ts).rest.length ≤ ts.length := (wrapped_suffix ..).length_le
    rw [runSymbol]
    cases s with
    | block mode =>
      have some := cutOff_consumes eof ts hl
      rw [allowance]
      omega
    | expression =>
      rw [allowance]
      omega
  | succ levels ih => exact definitionOf_costs ih s

section

variable (hi : ∀ s, Costs (opening s) (allowance s) (inner s))
include hi

/-! ### Stages -/

/-- The keyword of a clause pays for it, with seven nodes to spare. -/
lemma clause_costs (h : Opens A pre) : Costs pre (-7) ((clause k mode).run eof inner) :=
  .le (by decide) (.node (.seq (costs_take h)
    (.seq recoverUntil_costs (.branch (patterns_costs hi) costs_missing))))

omit hi in
/-- The keyword of a selection pays for it, with six nodes to spare. -/
lemma stageSelect_costs (h : Opens A pre) : Costs pre (-6) (stageSelect.run eof inner) :=
  .le (by decide) (.node (.seq (costs_take h) (.seq variableList_costs expect_costs)))

omit hi in
/-- The keyword of a sort pays for it, with six nodes to spare. -/
lemma stageSort_costs (h : Opens A pre) : Costs pre (-6) (stageSort.run eof inner) := by
  have key : Costs anything 1 ((Rule.seq (expect .var .var)
      (.branch (nextIs (oneOf [.kwAsc, .kwDesc])) .take .skip)).run eof inner) :=
    .seq expect_costs (.branch (costs_take found_nextIs.right) costs_skip)
  exact .le (by decide) (.node (.seq (costs_take h)
    (.seq (commaSeparated_costs (by decide) key) expect_costs)))

omit hi in
/-- The keyword in front of a number of answers pays for both, with six nodes to spare. -/
lemma stageCount_costs (h : Opens A pre) : Costs pre (-6) ((stageCount k).run eof inner) :=
  .le (by decide) (.node (.seq (costs_take h) (.seq expect_costs expect_costs)))

/-- The keyword of a reduction pays for it, with five nodes to spare. -/
lemma stageReduce_costs (h : Opens A pre) : Costs pre (-5) (stageReduce.run eof inner) := by
  have reduction : Costs anything 2 ((Rule.seq (expect .var .var)
      (expectThen .assign .assign (.nested .expression))).run eof inner) :=
    .seq expect_costs (expectThen_costs (by decide) (nestedExpression_costs hi))
  exact .le (by decide) (.node (.seq (costs_take h)
    (.seq (commaSeparated_costs (by decide) reduction) expect_costs)))

/-- The keyword of a stage pays for it, with five nodes to spare. -/
lemma stage_costs (h : Opens A pre) : Costs pre (-5) (stage.run eof inner) := by
  refine .le (by decide) (.branch (clause_costs hi found_next.right)
    (.branch (clause_costs hi found_next.right) (.branch (clause_costs hi found_next.right)
      (.branch (clause_costs hi found_next.right) (.branch (clause_costs hi found_next.right)
        (.branch (stageSelect_costs found_next.right) (.branch (stageSort_costs found_next.right)
          (.branch (stageCount_costs found_next.right) (.branch (stageCount_costs found_next.right)
            (.branch (stageReduce_costs hi found_next.right)
              (costs_recover (A := A) ?_)))))))))))
  exact h.mono fun _ hl => hl.1.1.1.1.1.1.1.1.1.1

/-- Each stage is paid for by its keyword, so any number of them costs nothing. -/
lemma stages_costs : Costs pre 0 (stages.run eof inner) :=
  .many (by decide) (stage_costs hi found_nextIs)

/-! ### Definitions -/

omit hi in
/-- A definable is paid for by its root kind, or by its label. -/
lemma definable_costs (ht : ∀ l, pre l → nextIs (oneOf [.rootKind, .label]) l = true) :
    Costs pre (-7) (definable.run eof inner) := by
  have labelled (l : Lookahead) (hl : pre l ∧ next .rootKind l = false) : next .label l = true := by
    obtain ⟨k, e, hk⟩ := nextIs_iff.mp (ht l hl.1)
    have other := hl.2
    simp only [next, e] at other ⊢
    cases k <;> first | rfl | exact absurd other (by decide) | cases hk
  have body {pre : Front} : Costs pre 0
      ((constraints Kind.isTypeConstraint (.node .typeConstraint typeConstraint)).run eof inner) :=
    constraints_costs (by decide) (.node (typeConstraint_costs found_nextIs))
  exact .le (by decide) (.node (.branch_seq
    (.seq (costs_take found_next.right) (.seq expect_costs body))
    (.seq (.branch_pass labelled (costs_take (found_next.mono labelled))) body)))

omit hi in
/-- The variable of a parameter pays for it, with eight nodes to spare. -/
lemma parameter_costs (h : Opens A pre) : Costs pre (-8) (parameter.run eof inner) :=
  .le (by decide) (.seq (costs_take h) (expectThen_costs (by decide) namedType_costs))

omit hi in
/-- Parameters cost at most their own node and a gap for the bracket. -/
lemma functionParams_costs : Costs pre 2 (functionParams.run eof inner) := by
  have again : Costs (nextThen .comma (· == .var) · = true) (-8)
      ((Rule.seq .take parameter).run eof inner) :=
    .le (by decide) (.seq (costs_take found_nextThen)
      (.seq costs_take_any (expectThen_costs (by decide) namedType_costs)))
  have parameters : Costs (next .var · = true) (-8) ((inOrder [parameter,
      .many (nextThen .comma (· == .var)) (.seq .take parameter),
      optional .comma]).run eof inner) :=
    .seq (parameter_costs found_next) (.seq (.many (by decide) again) optional_costs)
  exact .le (by decide) (.node (expectThen_costs (by decide)
    (.seq (.branch (parameters.mono fun _ hl => hl.2) costs_skip) expect_costs)))

omit hi in
/-- The types of results cost a gap at most. -/
lemma returnTypes_costs : Costs pre 1 (returnTypes.run eof inner) := by
  have types {pre : Front} : Costs pre 1 ((commaSeparated namedType).run eof inner) :=
    commaSeparated_costs (by decide) namedType_costs
  exact .le (by decide) (.branch
    (.seq (costs_take found_next.right) (.seq types expect_costs)) types)

omit hi in
/-- The keyword of a return pays for it, with six nodes to spare. -/
lemma functionReturn_costs (h : Opens A pre) : Costs pre (-6) (functionReturn.run eof inner) :=
  .le (by decide) (.node (.seq (costs_take h) (.seq optional_costs (.seq
    (.branch (.seq (costs_take found_next.right) (.seq variableList_costs expect_costs))
      variableList_costs)
    expect_costs))))

/-- Everything that may be absent from a function is paid for by its keyword. -/
lemma function_costs (h : Opens A pre) : Costs pre (-2) (function.run eof inner) :=
  .le (by decide) (.node (.seq (costs_take h) (.seq expect_costs (.seq functionParams_costs
    (.seq (expectThen_costs (by decide) returnTypes_costs) (.seq expect_costs
      (.seq (stages_costs hi)
        (.branch (functionReturn_costs found_next.right) costs_missing))))))))

/-- Every turn of the definitions is paid for by its first token. -/
lemma definitions_costs : Costs pre 0 (definitions.run eof inner) :=
  .many (by decide) (.branch (.seq (definable_costs fun _ hl => hl.2) separator_costs)
    (.branch (function_costs hi found_next.right) (costs_recover found_nextIs.left.left)))

/-! ### Queries -/

/-- The keyword of a schema query pays for it, with seven nodes to spare. -/
lemma querySchema_costs (h : Opens A pre) : Costs pre (-7) (querySchema.run eof inner) :=
  .le (by decide) (.node (.seq (costs_take h)
    (.seq recoverUntil_costs (.branch (definitions_costs hi) costs_missing))))

/-- A pipeline is paid for by the keyword of its first stage. -/
lemma queryPipeline_costs (ht : ∀ l, pre l → nextIs Kind.isStageKeyword l = true) :
    Costs pre (-4) (queryPipeline.run eof inner) := by
  have h : Opens (fun _ => true) pre := found_nextIs.mono ht
  exact .node (.many_first (by decide) ht h (stage_costs hi h) (stage_costs hi found_nextIs))

/-- The keyword that opens a query pays for it, with three nodes to spare. -/
lemma query_costs
    (ht : ∀ l, pre l → nextIs (fun k => k.isSchemaKeyword || k.isStageKeyword) l = true) :
    Costs pre (-3) (query.run eof inner) :=
  .le (by decide) (.node (.seq
    (.branch (querySchema_costs hi found_nextIs.right)
      (queryPipeline_costs hi fun l hl => isStageKeyword_of_query (ht l hl.1) hl.2))
    (.branch (.seq (costs_take found_next.right) expect_costs) costs_skip)))

/-- Every turn of a document is paid for by its first token. -/
lemma queries_costs : Costs pre 0 (queries.run eof inner) :=
  .many (by decide) (.branch (query_costs hi fun _ hl => hl.2) (costs_recover found_nextIs.left))

end

/-- A document has at most ten nodes for each of its tokens. -/
theorem sizeAll_readDocument_le (eof : Nat) (ts : List Token) :
    sizeAll (readDocument eof ts).nodes ≤ 10 * ts.length := by
  have costs : Costs anything 0 (queries.run eof (runSymbol definitionOf eof maxNesting)) :=
    queries_costs (runSymbol_costs eof maxNesting)
  have cost := costs ts trivial
  rw [readDocument]
  omega

end Grammar

end TypeqlAssist

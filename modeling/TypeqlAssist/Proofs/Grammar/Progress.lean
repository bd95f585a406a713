import TypeqlAssist.Proofs.Grammar.Placement

/-!
# The progress of loops

Every loop of the grammar reads a token at each turn, whatever the input (`Steady`). So a loop ends
because its test fails and never because its fuel runs out.
-/

namespace TypeqlAssist

namespace Grammar

/-! ## Steady rules -/

/-- Every loop of a rule reads a token at each turn. -/
inductive Steady (eof : Nat) (inner : Symbol → List Token → Parsed) : Rule → Prop where
  | skip :
    Steady eof inner .skip
  | take :
    Steady eof inner .take
  | missing {wanted} :
    Steady eof inner (.missing wanted)
  | stray :
    Steady eof inner .stray
  | recover :
    Steady eof inner .recover
  | nested {s} :
    Steady eof inner (.nested s)
  | seq {p q} :
    Steady eof inner p →
    Steady eof inner q →
    Steady eof inner (.seq p q)
  | node {k p} :
    Steady eof inner p →
    Steady eof inner (.node k p)
  | branch {test p q} :
    Steady eof inner p →
    Steady eof inner q →
    Steady eof inner (.branch test p q)
  | many {test p} :
    Consumes (test · = true) (p.run eof inner) →
    Steady eof inner p →
    Steady eof inner (.many test p)
  | joined {p test k q} :
    Steady eof inner p →
    Steady eof inner q →
    Steady eof inner (.joined p test k q)

variable {eof : Nat} {inner : Symbol → List Token → Parsed} {pre : Front} {test : Test} {k : Kind}
  {wanted : Wanted} {p q : Rule} {mode : Mode} {A : Kind → Bool}

/-- A rule reads nothing again and again. -/
def Rule.isStraight : Rule → Bool
  | skip | take | missing _ | stray | recover | nested _ => true
  | seq p q | branch _ p q | joined p _ _ q => p.isStraight && q.isStraight
  | node _ p => p.isStraight
  | many _ _ => false

/-- A rule without loops of its own is steady. -/
lemma Rule.isStraight.steady {r : Rule} (h : r.isStraight = true) : Steady eof inner r := by
  induction r with
  | skip => exact .skip
  | take => exact .take
  | missing => exact .missing
  | stray => exact .stray
  | recover => exact .recover
  | nested => exact .nested
  | seq p q ihp ihq =>
    obtain ⟨hp, hq⟩ := Bool.and_eq_true_iff.mp h
    exact .seq (ihp hp) (ihq hq)
  | node k p ih => exact .node (ih h)
  | branch test p q ihp ihq =>
    obtain ⟨hp, hq⟩ := Bool.and_eq_true_iff.mp h
    exact .branch (ihp hp) (ihq hq)
  | many => cases h
  | joined p test k q ihp ihq =>
    obtain ⟨hp, hq⟩ := Bool.and_eq_true_iff.mp h
    exact .joined (ihp hp) (ihq hq)

/-! ## Loops of the grammar -/

/-- A test for a kind passes only where there is a token. -/
lemma found_next : Opens (fun _ => true) (next k · = true) :=
  opens_next rfl

/-- A test for a kind and its successor passes only where there is a token. -/
lemma found_nextThen {after : Kind → Bool} : Opens (fun _ => true) (nextThen k after · = true) :=
  opens_nextThen rfl

section

variable (g : Guarded inner)
include g

/-- A loop whose turns start with a token that the test has found makes progress. -/
lemma Steady.many_take (h : Opens A (test · = true)) (hp : Steady eof inner p) :
    Steady eof inner (.many test (.seq .take p)) :=
  .many (.seq_left g.suffix (consumes_take h)) (.seq .take hp)

/-! ## The productions -/

/-- Each turn of a list reads its comma. -/
lemma commaSeparated_steady (hp : Steady eof inner p) : Steady eof inner (commaSeparated p) :=
  .seq hp (.many_take g found_next hp)

/-- A list of variables is steady, as lists are. -/
lemma variableList_steady : Steady eof inner variableList :=
  commaSeparated_steady g (Rule.isStraight.steady rfl)

/-- The arguments of a call are a list, and steady as lists are. -/
lemma functionCall_steady : Steady eof inner functionCall := by
  refine .node (.seq .take (.seq .take (.seq ?_ (Rule.isStraight.steady rfl))))
  exact .branch .skip (commaSeparated_steady g .nested)

/-- The only loop in an operand is the list of arguments of a call. -/
lemma operand_steady : Steady eof inner operand :=
  .branch .take (.branch (functionCall_steady g) (Rule.isStraight.steady rfl))

/-- Each turn of an expression reads its operator. -/
lemma expression_steady : Steady eof inner expression := by
  refine .node (.seq (operand_steady g) ?_)
  exact .many_take g found_next (operand_steady g)

/-- Constraints make progress if each of them does. -/
lemma constraints_steady {accepts : Kind → Bool} (hp : Steady eof inner p)
    (hc : Consumes (nextIs accepts · = true) (p.run eof inner)) :
    Steady eof inner (constraints accepts p) := by
  refine .many (.branch ?_ (.branch (hc.mono fun _ hl => hl.2) ?_)) ?_
  · exact .seq_left g.suffix (consumes_take found_next.right)
  · exact consumes_stray (opens_nextIs fun _ hk => hk).left.left
  · exact .branch (Rule.isStraight.steady rfl) (.branch hp .stray)

omit g in
/-- There is no loop in a type constraint. -/
lemma typeConstraint_steady : Steady eof inner typeConstraint :=
  Rule.isStraight.steady rfl

/-- A type constraint reads its keyword. -/
lemma typeConstraint_consumes : Consumes (nextIs Kind.isTypeConstraint · = true)
    (typeConstraint.run eof inner) :=
  .seq_left g.suffix (consumes_take (opens_nextIs fun _ hk => hk))

/-- Each further player of a relation comes with its comma. -/
lemma relation_steady : Steady eof inner relation := by
  refine .node (.seq .take (.seq (.branch ?_ .missing) (Rule.isStraight.steady rfl)))
  refine .seq (Rule.isStraight.steady rfl) (.seq ?_ (Rule.isStraight.steady rfl))
  exact .many_take g found_nextThen (Rule.isStraight.steady rfl)

/-- The only loop in a constraint on a thing is that of its role players. -/
lemma thingConstraint_steady : Steady eof inner thingConstraint := by
  refine .branch (Rule.isStraight.steady rfl) (.branch (Rule.isStraight.steady rfl) ?_)
  exact .branch (.seq .take (.branch (relation_steady g) .missing)) .skip

/-- A constraint on a thing reads its keyword. -/
lemma thingConstraint_consumes : Consumes (nextIs Kind.isThingConstraint · = true)
    (thingConstraint.run eof inner) := by
  have read (k : Kind) {pre : Front} {p : Rule} :
      Consumes (fun l => pre l ∧ next k l = true) ((Rule.seq .take p).run eof inner) :=
    .seq_left g.suffix (consumes_take found_next.right)
  refine .branch (read _) (.branch (read _) (.branch (read _) ?_))
  -- there is no other constraint on a thing
  rintro ts ⟨⟨⟨hl, isa⟩, has⟩, links⟩
  obtain ⟨k, e, hk⟩ := nextIs_iff.mp hl
  rw [next, e] at isa has links
  cases k <;> first | exact absurd hk (by decide) | exact absurd isa (by decide) |
    exact absurd has (by decide) | exact absurd links (by decide)

/-- Each turn of a statement about a thing reads a constraint. -/
lemma statementThing_steady : Steady eof inner statementThing :=
  .node (.seq .take (constraints_steady g (thingConstraint_steady g) (thingConstraint_consumes g)))

/-- Each turn of a statement about a type reads a constraint. -/
lemma statementType_steady : Steady eof inner statementType :=
  .node (.seq (Rule.isStraight.steady rfl)
    (constraints_steady g typeConstraint_steady (typeConstraint_consumes g)))

/-- Whichever statement is read, it is steady. -/
lemma statement_steady : Steady eof inner (statement mode) := by
  refine .node (.branch ?_ (.branch (statementThing_steady g) ?_))
  · exact .node (.seq .take (.seq (variableList_steady g) (Rule.isStraight.steady rfl)))
  refine .branch (statementType_steady g) (.branch (.seq .take ?_) (statementType_steady g))
  exact .many (consumes_stray found_next) .stray

/-- Each further block of a disjunction comes with its `or`. -/
lemma pattern_steady : Steady eof inner (pattern mode) := by
  refine .branch (Rule.isStraight.steady rfl) (.branch (Rule.isStraight.steady rfl) ?_)
  refine .branch (.joined (Rule.isStraight.steady rfl) ?_) (statement_steady g)
  exact .many_take g found_next (Rule.isStraight.steady rfl)

omit g in
/-- A separator reads a token wherever there is one that is no recovery point. -/
lemma separator_consumes (h : Opens (!isRecoveryPoint ·) pre) :
    Consumes pre (separator.run eof inner) := by
  refine .branch (consumes_take found_next.right) ?_
  refine .branch (consumes_recover h.left.left) ?_
  rintro ts ⟨⟨hl, _⟩, fail⟩
  have pass := nextIs_iff.mpr (h _ hl)
  rw [fail] at pass
  cases pass

omit g in
/-- Each turn of recovery skips a token. -/
lemma recoverUntil_steady {starts : Kind → Bool} : Steady eof inner (recoverUntil starts) :=
  .many (consumes_recover (opens_nextIs fun _ hk => hk)) .recover

/-- Each turn of the patterns reads a pattern, or recovers. -/
lemma patterns_steady : Steady eof inner (patterns mode) := by
  have some : Opens (!isRecoveryPoint ·) (nextIs (!isRecoveryPoint ·) · = true) :=
    opens_nextIs fun _ hk => hk
  refine .many (.branch (.seq_right g.suffix (separator_consumes some.left)) ?_) ?_
  · exact consumes_recover some.left
  · exact .branch (.seq (pattern_steady g) (Rule.isStraight.steady rfl)) .recover

/-- The loops of the productions that may contain themselves make progress. -/
lemma definitionOf_steady (s : Symbol) : Steady eof inner (definitionOf s) := by
  cases s with
  | expression => exact expression_steady g
  | block mode => exact .seq .take (.seq (patterns_steady g) (Rule.isStraight.steady rfl))

/-- The loops of a clause are recovery and its patterns. -/
lemma clause_steady : Steady eof inner (clause k mode) :=
  .node (.seq .take (.seq recoverUntil_steady (.branch (patterns_steady g) .missing)))

/-- Whichever stage is read, it is steady. -/
lemma stage_steady : Steady eof inner stage := by
  refine .branch (clause_steady g) (.branch (clause_steady g) (.branch (clause_steady g) ?_))
  refine .branch (clause_steady g) (.branch (clause_steady g) (.branch ?_ (.branch ?_ ?_)))
  · exact .node (.seq .take (.seq (variableList_steady g) (Rule.isStraight.steady rfl)))
  · refine .node (.seq .take (.seq ?_ (Rule.isStraight.steady rfl)))
    exact commaSeparated_steady g (Rule.isStraight.steady rfl)
  refine .branch (Rule.isStraight.steady rfl) (.branch (Rule.isStraight.steady rfl) ?_)
  refine .branch (.node (.seq .take (.seq ?_ (Rule.isStraight.steady rfl)))) .recover
  exact commaSeparated_steady g (Rule.isStraight.steady rfl)

/-- Each turn of the stages reads the keyword of one. -/
lemma stages_steady : Steady eof inner stages :=
  .many (stage_consumes g (opens_nextIs fun _ hk => hk)) (stage_steady g)

/-- Each turn of a definition reads a constraint. -/
lemma definable_steady : Steady eof inner definable := by
  refine .node (.seq (Rule.isStraight.steady rfl) (.seq (Rule.isStraight.steady rfl) ?_))
  exact constraints_steady g (.node typeConstraint_steady) (typeConstraint_consumes g).node

/-- Each further parameter comes with its comma. -/
lemma functionParams_steady : Steady eof inner functionParams := by
  refine .node (.branch (.seq .take ?_) .missing)
  refine .seq (.branch ?_ .skip) (Rule.isStraight.steady rfl)
  refine .seq (Rule.isStraight.steady rfl) (.seq ?_ (Rule.isStraight.steady rfl))
  exact .many_take g found_nextThen (Rule.isStraight.steady rfl)

/-- The types of results are lists, with braces or without. -/
lemma returnTypes_steady : Steady eof inner returnTypes := by
  have types : Steady eof inner (commaSeparated namedType) :=
    commaSeparated_steady g (Rule.isStraight.steady rfl)
  exact .branch (.seq .take (.seq types (Rule.isStraight.steady rfl))) types

/-- The variables that are returned are lists, with braces or without. -/
lemma functionReturn_steady : Steady eof inner functionReturn := by
  have vars : Steady eof inner variableList := variableList_steady g
  refine .node (.seq .take (.seq (Rule.isStraight.steady rfl) ?_))
  refine .seq ?_ (Rule.isStraight.steady rfl)
  exact .branch (.seq .take (.seq vars (Rule.isStraight.steady rfl))) vars

/-- The loops of a function are those of its parts. -/
lemma function_steady : Steady eof inner function := by
  refine .node (.seq .take (.seq (Rule.isStraight.steady rfl) (.seq (functionParams_steady g) ?_)))
  refine .seq (.branch (.seq .take (returnTypes_steady g)) .missing) ?_
  refine .seq (Rule.isStraight.steady rfl) (.seq (stages_steady g) ?_)
  exact .branch (functionReturn_steady g) .missing

/-- Each turn of the definitions reads a definition or a function, or recovers. -/
lemma definitions_steady : Steady eof inner definitions := by
  refine .many (.branch ?_ (.branch ?_ ?_)) ?_
  · refine .seq_right g.suffix (separator_consumes (Tells.right (opens_oneOf ?_)))
    decide
  · exact node_consumes g found_next.right
  · exact consumes_recover (opens_nextIs fun _ hk => hk).left.left
  · refine .branch (.seq (definable_steady g) (Rule.isStraight.steady rfl)) ?_
    exact .branch (function_steady g) .recover

/-- The loops of a schema query are recovery and its definitions. -/
lemma querySchema_steady : Steady eof inner querySchema :=
  .node (.seq .take (.seq recoverUntil_steady (.branch (definitions_steady g) .missing)))

/-- The loops of a pipeline are those of its stages. -/
lemma queryPipeline_steady : Steady eof inner queryPipeline :=
  .node (stages_steady g)

/-- Whichever query is read, it is steady. -/
lemma query_steady : Steady eof inner query :=
  .node (.seq (.branch (querySchema_steady g) (queryPipeline_steady g))
    (Rule.isStraight.steady rfl))

/-- Each turn of a document reads a query, or recovers. -/
lemma queries_steady : Steady eof inner queries :=
  .many (turn_consumes g) (.branch (query_steady g) .recover)

end

end Grammar

end TypeqlAssist

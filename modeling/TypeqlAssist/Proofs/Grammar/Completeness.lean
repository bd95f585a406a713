import Mathlib.Tactic.FinCases
import TypeqlAssist.Proofs.Grammar.Covering
import TypeqlAssist.Proofs.Grammar.Soundness

/-!
# What is derivable is accepted

A production of the grammar accepts whatever the phrase it is meant for stands for, and stops
behind it, as long as no kind comes next that it would go on with. The lemmas follow the productions
from the smallest to the whole document.
-/

namespace TypeqlAssist

namespace Grammar

/-- What comes after a symbol where the grammar asks for it. -/
def closing : Symbol → Front
  | .block _ => anything
  | .expression => (nextIs (oneOf [.lparen, .operator]) · = false)

/-- The symbols one level further down accept whatever their phrases stand for. -/
def Complete (n : Nat) (inner : Symbol → List Kind → Option (List Kind)) : Prop :=
  ∀ s, Covers n (.nested s) (inner s) (closing s)

variable {n : Nat} {mid post : Front} {inner : Symbol → List Kind → Option (List Kind)} {p : Rule}
  {a c : Phrase} {k : Kind} {ks : List Kind} {wanted : Wanted} {mode : Mode}
  {accepts : Kind → Bool}

/-! ## Small rules -/

/-- An expected token is accepted. -/
lemma expect_covers : Covers n (.token k) ((expect k wanted).accept inner) post :=
  covers_token fun _ => if_pos (beq_self_eq_true _)

/-- A token that may be absent is accepted, and so is its absence where it is not next. -/
lemma optional_covers :
    Covers n (.maybe (.token k)) ((optional k).accept inner) (next k · = false) :=
  .branch (leads_token fun _ => beq_self_eq_true _) covers_take fun _ hl => hl

/-- What is expected behind a token is accepted with it. -/
lemma expectThen_covers (hp : Covers n a (p.accept inner) post) :
    Covers n (.seq (.token k) a) ((expectThen k wanted p).accept inner) post :=
  .congr_first (.takeThen hp) fun _ => if_pos (beq_self_eq_true _)

/-- What is separated by commas may be followed by what its parts may, except a comma. -/
lemma commaSeparated_covers (hp : Covers n a (p.accept inner) mid)
    (comma : ∀ second, mid ⟨some .comma, second⟩) :
    Covers n (.separated a) ((commaSeparated p).accept inner)
      fun l => next .comma l = false ∧ mid l := by
  have first : Starts Phrase.body n (.seq (.token .comma) a) [.comma] :=
    starts_tokenThen (.head [])
  refine .seq hp (.star ?_ fun _ hl => hl.2) (.many first.not_nil (.takeThen hp) ?_ ?_ ?_ ?_)
  · exact leads_tokenThen comma
  · exact leads_tokenThen fun _ => rfl
  · exact leads_tokenThen comma
  · exact fun _ hl => hl.1
  · exact fun _ hl => hl.2

/-- A list of variables ends where no comma comes next. -/
lemma variableList_covers :
    Covers n .variableList (variableList.accept inner) (next .comma · = false) := by
  have covers : Covers n .variableList (variableList.accept inner)
      fun l => next .comma l = false ∧ anything l :=
    commaSeparated_covers expect_covers fun _ => trivial
  exact covers.mono fun _ hl => ⟨hl, trivial⟩

/-- A type reference ends where no role comes after it. -/
lemma typeRef_covers :
    Covers n (.reference ks) (typeRef.accept inner) (nextThen .colon (· == .label) · = false) := by
  refine .takeThen (.branch ?_ (.takeThen covers_take) fun _ hl => hl)
  intro w rest hw _
  obtain ⟨u, v, rfl, hu, hv⟩ := derives_seq.mp hw
  rw [derives_token.mp hu, derives_token.mp hv]
  rfl

/-- A named type ends where no role comes next. -/
lemma namedType_covers :
    Covers n .labelRef (namedType.accept inner) (nextThen .colon (· == .label) · = false) :=
  .congr_first typeRef_covers fun _ => rfl

/-- What stands for a type ends where no role comes next. -/
lemma typeOrVariable_covers :
    Covers n .typeOrVariable (typeOrVariable.accept inner)
      (nextThen .colon (· == .label) · = false) := by
  refine .either (.congr (.seq (starts_word (List.Subset.refl _))) typeRef_covers ?_) ?_
  · intro k hk ms
    fin_cases hk <;> rfl
  · exact covers_token fun _ => rfl

/-- A semicolon is accepted as a separator. -/
lemma separator_covers : Covers n (.token .semicolon) (separator.accept inner) post :=
  covers_token fun _ => rfl

/-! ## Expressions -/

section

variable (g : Complete n inner)
include g

/-- What stands for a symbol is accepted one level further down. -/
lemma nested_covers (s : Symbol) :
    Covers n (.nested s) ((Rule.nested s).accept inner) (closing s) :=
  g s

/-- A call ends with its bracket, whatever is next. -/
lemma functionCall_covers :
    Covers n (.row [.token .label, .token .lparen, .maybe (.separated (.nested .expression)),
      .token .rparen]) (functionCall.accept inner) anything := by
  have arguments : Covers n (.maybe (.separated (.nested .expression)))
      ((Rule.branch (next .rparen) .skip (commaSeparated (.nested .expression))).accept inner)
      (next .rparen · = true) := by
    have separated := commaSeparated_covers (nested_covers g .expression) fun _ => rfl
    refine .either (.congr (.seq starts_expression) (separated.mono ?_) ?_) ?_
    · exact imp_of_next fun _ => ⟨rfl, rfl⟩
    · intro k hk ms
      fin_cases hk <;> rfl
    · intro w rest hw hl
      rw [derives_empty.mp hw]
      exact if_pos hl
  exact .takeThen (.takeThen (.seq arguments (leads_token fun _ => rfl) expect_covers))

/-- A label in front of a bracket would be the name of a function. -/
lemma operand_covers :
    Covers n .operand (operand.accept inner) (next .lparen · = false) := by
  have bracketed : Covers n (.row [.token .lparen, .nested .expression, .token .rparen])
      ((inOrder [.take, .nested .expression, expect .rparen .closeParen]).accept inner)
      (next .lparen · = false) :=
    .takeThen (.seq (nested_covers g .expression) (leads_token fun _ => rfl) expect_covers)
  refine .either ?_ (.either ?_ ?_)
  · intro w rest hw hl
    obtain ⟨k, hk, rfl⟩ := derives_word.mp hw
    have other : nextIs (· == .lparen) (.ofKinds rest) ≠ true := by
      intro open'
      obtain ⟨k, e, hk⟩ := nextIs_iff.mp open'
      rw [next, e, eq_of_beq hk] at hl
      cases hl
    -- only for a label it matters what comes next
    fin_cases hk
    · rfl
    · rfl
    · rfl
    · exact if_neg other
  · intro w rest hw _
    obtain ⟨u, v, rfl, hu, hv⟩ := derives_seq.mp hw
    obtain ⟨u', v, rfl, hu', _⟩ := derives_seq.mp hv
    have read := functionCall_covers g _ rest hw trivial
    rw [derives_token.mp hu, derives_token.mp hu'] at read ⊢
    exact read
  · exact .congr_first bracketed fun _ => rfl

/-- An expression ends where no operator and no bracket comes next. -/
lemma expression_covers :
    Covers n .expression (expression.accept inner) (closing .expression) := by
  have operator : Starts Phrase.body n (.seq (.token .operator) .operand) [.operator] :=
    starts_tokenThen (.head [])
  have another : Covers n (.star (.seq (.token .operator) .operand))
      ((Rule.many (next .operator) (.seq .take operand)).accept inner) (closing .expression) := by
    refine .many operator.not_nil (.takeThen (operand_covers g)) ?_ ?_ ?_ ?_
    · exact leads_tokenThen fun _ => rfl
    · exact leads_tokenThen fun _ => rfl
    · exact fun _ hl => next_eq_false hl rfl
    · exact fun _ hl => next_eq_false hl rfl
  refine .seq (operand_covers g) (.star ?_ ?_) another
  · exact leads_tokenThen fun _ => rfl
  · exact fun _ hl => next_eq_false hl rfl

end

/-! ## Constraints -/

/-- What comes after a constraint is no part of its type or of its attribute. -/
def detached : Front :=
  (nextIs (oneOf [.colon, .var, .stringLiteral, .numberLiteral]) · = false)

/-- A type constraint ends where its type does. -/
lemma typeConstraint_covers : Covers n .typeConstraint (typeConstraint.accept inner) detached := by
  refine .takeThen (typeOrVariable_covers.mono ?_)
  exact fun _ hl => nextThen_eq_false (next_eq_false hl rfl)

/-- A role ends in front of the colon that its player comes after. -/
lemma rolePlayer_covers : Covers n .rolePlayer (rolePlayer.accept inner) post := by
  refine .seq (.branch ?_ (.seq typeRef_covers leads_nextThen expect_covers) ?_)
    (leads_token fun _ => rfl) expect_covers
  · exact .first (leads_tokenThen fun _ => rfl)
  · exact fun _ hl => next_eq_false hl rfl

/-- A relation ends with its bracket, whatever is next. -/
lemma relation_covers :
    Covers n (.row [.token .lparen, .separated .rolePlayer, .token .rparen])
      (relation.accept inner) post := by
  have another : Starts Phrase.body n (.seq (.token .comma) .rolePlayer) [.comma] :=
    starts_tokenThen (.head [])
  have more : Covers n (.star (.seq (.token .comma) .rolePlayer))
      ((Rule.many (nextThen .comma startsRolePlayer) (.seq .take rolePlayer)).accept inner)
      (nextThen .comma startsRolePlayer · = false) := by
    refine .many_free another.not_nil (.takeThen rolePlayer_covers) (.seq leads_nextThen ?_)
    refine leads_of_starts starts_rolePlayer ?_
    intro k hk _
    fin_cases hk <;> rfl
  have players : Covers n (.separated .rolePlayer)
      ((inOrder [
        rolePlayer,
        .many (nextThen .comma startsRolePlayer) (.seq .take rolePlayer),
        .branch (next .comma) (.seq .take (.missing .rolePlayer)) .skip]).accept inner)
      (next .rparen · = true) := by
    refine .then rolePlayer_covers (.thenEmpty (more.mono ?_) (covers_branch_skip ?_))
    · exact imp_of_next fun _ => rfl
    · exact imp_of_next fun _ => rfl
  refine .takeThen (.seq (.congr (.seq starts_rolePlayer) players ?_) (leads_token fun _ => rfl)
    expect_covers)
  intro k hk ms
  fin_cases hk <;> rfl

/-- The attribute of a thing ends where no value and no role comes next. -/
lemma ownedAttribute_covers : Covers n .ownedAttribute (ownedAttribute.accept inner) detached := by
  have value : Starts Phrase.body n (.word [.var, .stringLiteral, .numberLiteral])
      [.var, .stringLiteral, .numberLiteral] := starts_word (List.Subset.refl _)
  have owned : Covers n
      (.seq .labelRef (.maybe (.word [.var, .stringLiteral, .numberLiteral])))
      ((Rule.seq typeRef
        (.branch (nextIs (oneOf [.var, .stringLiteral, .numberLiteral])) .take .skip)).accept inner)
      detached := by
    refine .seq typeRef_covers (.maybe (leads_of_starts value ?_) ?_)
      (.branch (leads_of_starts value ?_) covers_take ?_)
    · intro k hk _
      fin_cases hk <;> rfl
    · exact fun _ hl => nextThen_eq_false (next_eq_false hl rfl)
    · intro k hk _
      fin_cases hk <;> rfl
    · intro l hl
      refine nextIs_eq_false hl ?_
      exact fun k hk => List.contains_iff_mem.mpr (.tail _ (List.contains_iff_mem.mp hk))
  refine .either (.congr_token (.seq (starts_tokenThen (.head []))) owned fun _ => rfl) ?_
  exact covers_token fun _ => rfl

/-- A constraint on a thing ends where what belongs to its keyword does. -/
lemma thingConstraint_covers :
    Covers n .thingConstraint (thingConstraint.accept inner) detached := by
  have isa : Covers n (.seq (.token .kwIsa) .typeOrVariable)
      ((Rule.seq .take typeOrVariable).accept inner) detached := by
    refine .takeThen (typeOrVariable_covers.mono ?_)
    exact fun _ hl => nextThen_eq_false (next_eq_false hl rfl)
  have has : Covers n (.seq (.token .kwHas) .ownedAttribute)
      ((Rule.seq .take ownedAttribute).accept inner) detached :=
    .takeThen ownedAttribute_covers
  have links : Covers n
      (.row [.token .kwLinks, .token .lparen, .separated .rolePlayer, .token .rparen])
      ((Rule.seq .take (.branch (next .lparen) relation (.missing .openParen))).accept inner)
      detached :=
    .takeThen (.congr_first relation_covers fun _ => rfl)
  refine .either ?_ (.either ?_ ?_)
  · exact .congr_first isa fun _ => rfl
  · exact .congr_first has fun _ => rfl
  · exact .congr_first links fun _ => rfl

/-- What the constraints of a list start with. -/
structure Keywords (accepts : Kind → Bool) (ks : List Kind) : Prop where
  accepted : ∀ k ∈ ks, accepts k = true
  not_comma : .comma ∉ ks
  detached : ∀ k ∈ ks, oneOf [.colon, .var, .stringLiteral, .numberLiteral] k = false
  ends : accepts .semicolon = false

section

variable (hs : Starts Phrase.body n c ks) (hp : Covers n c (p.accept inner) detached)
  (keywords : Keywords accepts ks)
include hs hp keywords

/-- A turn in front of a constraint reads it. -/
lemma acceptConstraints_append {fuel : Nat} {u v : List Kind} (hu : Derives Phrase.body n c u)
    (behind : detached (.ofKinds v)) :
    acceptConstraints accepts p inner (fuel + 1) (u ++ v) =
      acceptConstraints accepts p inner fuel v := by
  obtain ⟨k, hk, ms, rfl⟩ := hs u hu
  have accepted := keywords.accepted k hk
  have pass : nextIs (fun k => k == .comma || accepts k || k == .label)
      (.ofKinds (k :: ms ++ v)) = true :=
    nextIs_iff.mpr ⟨k, rfl, by rw [accepted, Bool.or_true, Bool.true_or]⟩
  have comma : ¬ next .comma (.ofKinds (k :: ms ++ v)) = true := by
    intro e
    cases eq_of_beq e
    exact keywords.not_comma hk
  refine acceptWhile_turn pass ?_
  rw [constraintTurn, Rule.accept_branch, if_neg comma, Rule.accept_branch]
  exact (if_pos accepted).trans (hp _ v hu behind)

omit hp in
/-- A turn in front of a comma reads it if a constraint comes after it. -/
lemma acceptConstraints_comma {fuel : Nat} {u v : List Kind} (hu : Derives Phrase.body n c u) :
    acceptConstraints accepts p inner (fuel + 1) (.comma :: (u ++ v)) =
      acceptConstraints accepts p inner fuel (u ++ v) := by
  obtain ⟨k, hk, ms, rfl⟩ := hs u hu
  have behind : nextIs (fun k => accepts k || k == .label) (.ofKinds (k :: ms ++ v)) = true :=
    nextIs_iff.mpr ⟨k, rfl, by rw [keywords.accepted k hk, Bool.true_or]⟩
  exact acceptWhile_turn rfl (if_pos behind)

omit hp in
/-- What comes after a constraint is another one, its comma or a semicolon. -/
lemma constraints_leads : Leads n (.constraints c) (next .semicolon · = true) detached := by
  refine .star (.seq (.maybe (leads_token fun _ => rfl) fun _ hl => hl) ?_)
    (imp_of_next fun _ => rfl)
  exact leads_of_starts hs fun k hk _ => keywords.detached k hk

/-- Constraints are accepted in front of a semicolon, each in a turn, and its comma in another. -/
lemma constraints_covers :
    Covers n (.constraints c) ((constraints accepts p).accept inner) (next .semicolon · = true) := by
  intro w rest hw hl
  have turns : ∀ fuel, w.length ≤ fuel →
      acceptConstraints accepts p inner fuel (w ++ rest) = some rest := by
    refine hw.star_induction (motive := fun w => ∀ fuel, w.length ≤ fuel →
      acceptConstraints accepts p inner fuel (w ++ rest) = some rest) ?_ ?_
    · have stop : ∀ l, next .semicolon l = true →
          nextIs (fun k => k == .comma || accepts k || k == .label) l = false := by
        refine imp_of_next fun _ => ?_
        rw [nextIs, Option.any_some, keywords.ends]
        rfl
      exact fun fuel _ => acceptWhile_stop (stop _ hl) fuel
    · intro x v hx hv ih fuel enough
      obtain ⟨m, u, rfl, hm, hu⟩ := derives_seq.mp hx
      have some := hu.length_pos hs.not_nil
      have behind := constraints_leads hs keywords v rest hv hl
      rw [List.append_assoc, List.append_assoc]
      rw [List.length_append, List.length_append] at enough
      rcases derives_maybe.mp hm with hm | rfl
      · rw [derives_token.mp hm] at enough ⊢
        rw [List.length_singleton] at enough
        obtain ⟨fuel, rfl⟩ := Nat.exists_eq_add_of_le' (by omega : 2 ≤ fuel)
        refine (acceptConstraints_comma hs keywords hu).trans ?_
        refine (acceptConstraints_append hs hp keywords hu behind).trans ?_
        exact ih fuel (by omega)
      · rw [List.length_nil] at enough
        obtain ⟨fuel, rfl⟩ := Nat.exists_eq_add_of_le' (by omega : 1 ≤ fuel)
        refine (acceptConstraints_append hs hp keywords hu behind).trans ?_
        exact ih fuel (by omega)
  exact turns _ (by simp)

omit hs hp keywords in
/-- A constraint and more constraints are constraints. -/
lemma derives_constraints {w : List Kind}
    (h : Derives Phrase.body n (.seq c (.constraints c)) w) :
    Derives Phrase.body n (.constraints c) w := by
  obtain ⟨u, v, rfl, hu, hv⟩ := derives_seq.mp h
  exact .more (.seq (.right .empty) hu) hv

end

/-- The keywords of type constraints are told from all that may follow one. -/
lemma keywords_type :
    Keywords Kind.isTypeConstraint [.kwSub, .kwOwns, .kwRelates, .kwPlays, .kwValue] :=
  ⟨by decide, by decide, by decide, rfl⟩

/-- The keywords of constraints on things are told from all that may follow one. -/
lemma keywords_thing : Keywords Kind.isThingConstraint [.kwIsa, .kwHas, .kwLinks] :=
  ⟨by decide, by decide, by decide, rfl⟩

/-- Type constraints end in front of a semicolon. -/
lemma typeConstraints_covers :
    Covers n (.constraints .typeConstraint)
      ((constraints Kind.isTypeConstraint typeConstraint).accept inner)
      (next .semicolon · = true) :=
  constraints_covers starts_typeConstraint typeConstraint_covers keywords_type

/-- Constraints on things end in front of a semicolon. -/
lemma thingConstraints_covers :
    Covers n (.constraints .thingConstraint)
      ((constraints Kind.isThingConstraint thingConstraint).accept inner)
      (next .semicolon · = true) :=
  constraints_covers starts_thingConstraint thingConstraint_covers keywords_thing

/-! ## Statements and patterns -/

/--
The keyword behind a variable decides which statement is read, and a semicolon decides on none.
-/
lemma subject_covers :
    Covers n (.subject mode) ((pattern mode).accept inner) (next .semicolon · = true) := by
  cases mode with
  | writing =>
    have thing : Covers n (.seq (.token .var) (.constraints .thingConstraint))
        (statementThing.accept inner) (next .semicolon · = true) :=
      .takeThen thingConstraints_covers
    exact .congr_first thing fun _ => rfl
  | reading =>
    have thing : Covers n (.row [.token .var, .thingConstraint, .constraints .thingConstraint])
        (statementThing.accept inner) (next .semicolon · = true) :=
      .takeThen (thingConstraints_covers.imp fun _ => derives_constraints)
    have type : Covers n (.row [.token .var, .typeConstraint, .constraints .typeConstraint])
        ((Rule.seq .take (constraints Kind.isTypeConstraint typeConstraint)).accept inner)
        (next .semicolon · = true) :=
      .takeThen (typeConstraints_covers.imp fun _ => derives_constraints)
    refine .either ?_ (.either ?_ ?_)
    · intro w rest hw hl
      obtain ⟨k, hk, ms, rfl⟩ := heads_next.exists_cons hl
      rw [derives_token.mp hw, List.mem_singleton.mp hk]
      rfl
    · refine .congr_second (.seq starts_thingConstraint) thing ?_
      intro k hk ms
      fin_cases hk <;> rfl
    · refine .congr_second (.seq starts_typeConstraint) type ?_
      intro k hk ms
      fin_cases hk <;> rfl

section

variable (g : Complete n inner)
include g

/-- A block is accepted where one is wanted. -/
lemma blockBody_covers : Covers n (.nested (.block mode)) ((blockBody mode).accept inner) post :=
  .congr_token starts_block (nested_covers g (.block mode)).of_anything fun _ => rfl

/-- Blocks end where no `or` comes next. -/
lemma disjunction_covers :
    Covers n (.seq (.nested (.block mode)) (.star (.seq (.token .kwOr) (.nested (.block mode)))))
      ((Rule.seq (conjunction mode)
        (.many (next .kwOr) (.seq .take (conjunction mode)))).accept inner)
      (next .kwOr · = false) := by
  have another : Starts Phrase.body n (.seq (.token .kwOr) (.nested (.block mode))) [.kwOr] :=
    starts_tokenThen (.head [])
  refine .then (blockBody_covers g) (.many_free another.not_nil (.takeThen (blockBody_covers g)) ?_)
  exact leads_tokenThen fun _ => rfl

/-- An assignment ends where its expression does. -/
lemma statementAssignment_covers :
    Covers n (.row [.token .kwLet, .variableList, .token .assign, .nested .expression])
      (statementAssignment.accept inner) (closing .expression) :=
  .takeThen (.seq variableList_covers (leads_tokenThen fun _ => rfl)
    (expectThen_covers (nested_covers g .expression)))

/-- A pattern ends in front of its semicolon. -/
lemma pattern_covers :
    Covers n (.pattern mode) ((pattern mode).accept inner) (next .semicolon · = true) := by
  have governed : Covers n (.seq (.word [.kwNot, .kwTry]) (.nested (.block mode)))
      ((Rule.seq .take (blockBody mode)).accept inner) (next .semicolon · = true) :=
    .takeThen (blockBody_covers g)
  have type : Covers n (.seq .labelRef (.constraints .typeConstraint))
      ((Rule.seq typeRef (constraints Kind.isTypeConstraint typeConstraint)).accept inner)
      (next .semicolon · = true) := by
    refine .seq typeRef_covers ?_ typeConstraints_covers
    intro w rest hw hl
    have detached := constraints_leads starts_typeConstraint keywords_type w rest hw hl
    exact nextThen_eq_false (next_eq_false detached rfl)
  refine .either ?_ (.either ?_ (.either ?_ (.either ?_ subject_covers)))
  · refine .congr (.seq (starts_word (List.Subset.refl _))) governed ?_
    intro k hk ms
    fin_cases hk <;> rfl
  · refine .congr_token (.seq starts_block) ((disjunction_covers g).mono ?_) ?_
    · exact imp_of_next fun _ => rfl
    · exact fun _ => accept_joined_many (k := .patternDisjunction)
  · refine .congr_first ((statementAssignment_covers g).mono ?_) ?_
    · exact imp_of_next fun _ => rfl
    · exact fun _ => rfl
  · refine .congr_token (.seq (starts_tokenThen (.head []))) type fun _ => ?_
    cases mode <;> rfl

/-- Patterns with their semicolons end at a recovery point or with the input. -/
lemma patterns_covers :
    Covers n (.star (.patternEnd mode)) ((patterns mode).accept inner)
      (nextIs (!isRecoveryPoint ·) · = false) := by
  have first : Starts Phrase.body n (.patternEnd mode)
      [.var, .label, .kwLet, .kwNot, .kwTry, .lbrace] := .seq starts_pattern
  have one : Covers n (.patternEnd mode) ((Rule.seq (pattern mode) separator).accept inner)
      anything := .seq (pattern_covers g) (leads_token fun _ => rfl) separator_covers
  refine .many_free first.not_nil (.congr first one ?_) (leads_of_starts first ?_)
  · intro k hk ms
    fin_cases hk <;> rfl
  · intro k hk _
    fin_cases hk <;> rfl

/-- A block ends with its brace, whatever is next. -/
lemma block_covers : Covers n (.block mode) ((block mode).accept inner) post :=
  .takeThen (.seq (patterns_covers g) (leads_token fun _ => rfl) expect_covers)

/-- The phrase of a symbol is accepted if those one level further down are. -/
lemma definitionOf_covers (s : Symbol) :
    Covers n (Phrase.body s) ((definitionOf s).accept inner) (closing s) := by
  cases s with
  | block mode => exact block_covers g
  | expression => exact expression_covers g

end

/-- Symbols accept whatever their phrases stand for, with as many levels left. -/
lemma acceptSymbol_complete (levels : Nat) :
    Complete levels (acceptSymbol definitionOf levels) := by
  induction levels with
  | zero => exact fun _ _ _ hw => absurd hw not_derives_nested
  | succ levels ih =>
    intro s w rest hw hl
    exact definitionOf_covers ih s w rest (derives_nested.mp hw) hl

/-! ## Stages -/

section

variable (g : Complete n inner)
include g

/-- A clause ends where no pattern can come next. -/
lemma clause_covers :
    Covers n (.seq (.word ks) (.plus (.patternEnd mode))) ((clause k mode).accept inner)
      (nextIs (!isRecoveryPoint ·) · = false) := by
  refine .takeThen (.congr (.seq (.seq starts_pattern))
    ((patterns_covers g).imp fun _ => derives_star_of_plus) ?_)
  intro k hk ms
  fin_cases hk <;> rfl

omit g in
/-- A selection ends with its semicolon. -/
lemma stageSelect_covers :
    Covers n (.row [.token .kwSelect, .variableList, .token .semicolon]) (stageSelect.accept inner)
      post :=
  .takeThen (.seq variableList_covers (leads_token fun _ => rfl) expect_covers)

omit g in
/-- A sort ends with its semicolon. -/
lemma stageSort_covers :
    Covers n (.row [.token .kwSort, .separated .sortKey, .token .semicolon])
      (stageSort.accept inner) post := by
  have direction : Starts Phrase.body n (.word [.kwAsc, .kwDesc]) [.kwAsc, .kwDesc] :=
    starts_word (List.Subset.refl _)
  have one : Covers n .sortKey
      ((Rule.seq (expect .var .var)
        (.branch (nextIs (oneOf [.kwAsc, .kwDesc])) .take .skip)).accept inner)
      (nextIs (oneOf [.kwAsc, .kwDesc]) · = false) := by
    refine .then expect_covers (.branch (leads_of_starts direction ?_) covers_take fun _ hl => hl)
    intro k hk _
    fin_cases hk <;> rfl
  refine .takeThen (.seq (commaSeparated_covers one fun _ => rfl) ?_ expect_covers)
  exact leads_token fun _ => ⟨rfl, rfl⟩

omit g in
/-- A stage with a number ends with its semicolon. -/
lemma stageCount_covers :
    Covers n (.row [.word ks, .token .numberLiteral, .token .semicolon])
      ((stageCount k).accept inner) post :=
  .takeThen (.then expect_covers expect_covers)

/-- A reduction ends with its semicolon. -/
lemma stageReduce_covers :
    Covers n (.row [.token .kwReduce, .separated .reduction, .token .semicolon])
      (stageReduce.accept inner) post := by
  have one : Covers n .reduction
      ((Rule.seq (expect .var .var) (expectThen .assign .assign (.nested .expression))).accept inner)
      (closing .expression) :=
    .then expect_covers (expectThen_covers (nested_covers g .expression))
  refine .takeThen (.seq (commaSeparated_covers one fun _ => rfl) ?_ expect_covers)
  exact leads_token fun _ => ⟨rfl, rfl⟩

/-- A stage ends at a recovery point or with the input; all but clauses end with a semicolon. -/
lemma stage_covers :
    Covers n .stage (stage.accept inner) (nextIs (!isRecoveryPoint ·) · = false) := by
  have read : Covers n (.seq (.token .kwMatch) (.plus (.patternEnd .reading)))
      ((clause .clauseMatch .reading).accept inner) (nextIs (!isRecoveryPoint ·) · = false) :=
    clause_covers g
  have written : Covers n
      (.seq (.word [.kwInsert, .kwDelete, .kwUpdate, .kwPut]) (.plus (.patternEnd .writing)))
      ((clause .clauseInsert .writing).accept inner) (nextIs (!isRecoveryPoint ·) · = false) :=
    clause_covers g
  have counted : Covers n
      (.row [.word [.kwLimit, .kwOffset], .token .numberLiteral, .token .semicolon])
      ((stageCount .stageLimit).accept inner) (nextIs (!isRecoveryPoint ·) · = false) :=
    stageCount_covers
  refine .either ?_ (.either ?_ (.either ?_ (.either ?_ (.either ?_ ?_))))
  · exact .congr_first read fun _ => rfl
  · refine .congr (.seq (starts_word (List.Subset.refl _))) written ?_
    intro k hk ms
    fin_cases hk <;> rfl
  · exact .congr_first stageSelect_covers fun _ => rfl
  · exact .congr_first stageSort_covers fun _ => rfl
  · refine .congr (.seq (starts_word (List.Subset.refl _))) counted ?_
    intro k hk ms
    fin_cases hk <;> rfl
  · exact .congr_first (stageReduce_covers g) fun _ => rfl

/-- Stages end where neither a stage nor a pattern goes on. -/
lemma stages_covers :
    Covers n (.star .stage) (stages.accept inner) fun l =>
      nextIs Kind.isStageKeyword l = false ∧ nextIs (!isRecoveryPoint ·) l = false := by
  refine .many starts_stage.not_nil (stage_covers g) (leads_of_starts starts_stage ?_)
    (leads_of_starts starts_stage ?_) ?_ ?_
  · intro k hk _
    fin_cases hk <;> rfl
  · intro k hk _
    fin_cases hk <;> rfl
  · exact fun _ hl => hl.1
  · exact fun _ hl => hl.2

/-! ## Schema definitions -/

omit g in
/-- A definition ends in front of a semicolon. -/
lemma definable_covers :
    Covers n .definable (definable.accept inner) (next .semicolon · = true) := by
  refine .seq optional_covers (leads_tokenThen fun _ => rfl) (.then expect_covers ?_)
  exact constraints_covers starts_typeConstraint typeConstraint_covers keywords_type

omit g in
/-- A parameter ends where its type does. -/
lemma parameter_covers :
    Covers n .parameter (parameter.accept inner) (nextThen .colon (· == .label) · = false) :=
  .takeThen (expectThen_covers namedType_covers)

omit g in
/-- A comma goes on with a parameter only if a variable comes after it. -/
lemma functionParams_covers : Covers n .parameters (functionParams.accept inner) post := by
  have another : Starts Phrase.body n (.seq (.token .comma) .parameter) [.comma] :=
    starts_tokenThen (.head [])
  have more : Covers n (.star (.seq (.token .comma) .parameter))
      ((Rule.many (nextThen .comma (· == .var)) (.seq .take parameter)).accept inner) fun l =>
        nextThen .comma (· == .var) l = false ∧ nextThen .colon (· == .label) l = false := by
    refine .many another.not_nil (.takeThen parameter_covers) (.seq leads_nextThen ?_) ?_ ?_ ?_
    · exact leads_tokenThen fun _ => rfl
    · exact leads_tokenThen fun _ => rfl
    · exact fun _ hl => hl.1
    · exact fun _ hl => hl.2
  have last : Leads n (.maybe (.token .comma)) (next .rparen · = true) fun l =>
      nextThen .comma (· == .var) l = false ∧ nextThen .colon (· == .label) l = false := by
    refine .maybe (.and (leads_nextThen.mono ?_) (leads_token fun _ => rfl)) ?_
    · exact imp_of_next fun _ => rfl
    · exact imp_of_next fun _ => ⟨rfl, rfl⟩
  have listed : Covers n (.seq .parameter
      (.seq (.star (.seq (.token .comma) .parameter)) (.maybe (.token .comma))))
      ((inOrder [
        parameter,
        .many (nextThen .comma (· == .var)) (.seq .take parameter),
        optional .comma]).accept inner)
      (next .rparen · = true) := by
    refine .seq parameter_covers (.seq (.star ?_ ?_) last) (.seq more last ?_)
    · exact leads_tokenThen fun _ => rfl
    · exact fun _ hl => hl.2
    · exact optional_covers.mono (imp_of_next fun _ => rfl)
  have first : Leads n (.seq .parameter
      (.seq (.star (.seq (.token .comma) .parameter)) (.maybe (.token .comma))))
      (next .rparen · = true) (next .var · = true) := .first (leads_tokenThen fun _ => rfl)
  have all := Covers.branch first listed (imp_of_next fun _ => rfl)
  exact expectThen_covers (.seq (all.imp fun _ => derives_listed.mp) (leads_token fun _ => rfl)
    expect_covers)

omit g in
/-- The types of results end where neither a comma nor a role comes next. -/
lemma returnTypes_covers :
    Covers n .returnTypes (returnTypes.accept inner) fun l =>
      next .comma l = false ∧ nextThen .colon (· == .label) l = false := by
  have types : Covers n (.separated .labelRef) ((commaSeparated namedType).accept inner) fun l =>
      next .comma l = false ∧ nextThen .colon (· == .label) l = false :=
    commaSeparated_covers namedType_covers fun _ => rfl
  have braces : Covers n (.row [.token .lbrace, .separated .labelRef, .token .rbrace])
      ((inOrder [.take, commaSeparated namedType, expect .rbrace .closeBrace]).accept inner)
      anything :=
    .takeThen (.seq types (leads_token fun _ => ⟨rfl, rfl⟩) expect_covers)
  refine .either ?_ ?_
  · exact .congr_first braces.of_anything fun _ => rfl
  · exact .congr_token (.seq (starts_tokenThen (.head []))) types fun _ => rfl

omit g in
/-- A return ends with its semicolon. -/
lemma functionReturn_covers : Covers n .returned (functionReturn.accept inner) post := by
  have braces : Covers n (.row [.token .lbrace, .variableList, .token .rbrace])
      ((inOrder [.take, variableList, expect .rbrace .closeBrace]).accept inner)
      (next .comma · = false) :=
    .takeThen (.seq variableList_covers (leads_token fun _ => rfl) expect_covers)
  have result : Covers n
      (.either (.row [.token .lbrace, .variableList, .token .rbrace]) .variableList)
      ((Rule.branch (next .lbrace) (inOrder [.take, variableList, expect .rbrace .closeBrace])
        variableList).accept inner)
      (next .comma · = false) := by
    refine .either ?_ ?_
    · exact .congr_first braces fun _ => rfl
    · exact .congr_first variableList_covers fun _ => rfl
  refine .takeThen (.seq optional_covers (.first (.either ?_ ?_))
    (.seq result (leads_token fun _ => rfl) expect_covers))
  · exact leads_tokenThen fun _ => rfl
  · exact leads_tokenThen fun _ => rfl

/-- Behind the colon of a function there is no label, so that it cannot be taken for a role's. -/
lemma function_covers : Covers n .function (function.accept inner) post := by
  have behind : Leads n (.seq (.star .stage) .returned) post (nextIs (· == .label) · = false) := by
    refine .seq (.star (leads_of_starts starts_stage ?_) fun _ hl => hl) ?_
    · intro k hk _
      fin_cases hk <;> rfl
    · exact leads_tokenThen fun _ => rfl
  have colon : Leads n (.token .colon) (nextIs (· == .label) · = false) fun l =>
      next .comma l = false ∧ nextThen .colon (· == .label) l = false :=
    .and (leads_token fun _ => rfl) leads_nextThen
  have result : Covers n .returned
      ((Rule.branch (next .kwReturn) functionReturn (.missing .returnKeyword)).accept inner) post :=
    .congr_first functionReturn_covers fun _ => rfl
  refine .takeThen (.then expect_covers (.then functionParams_covers ?_))
  refine .seq (expectThen_covers returnTypes_covers) (.seq colon behind) (.then expect_covers ?_)
  exact .seq (stages_covers g) (leads_tokenThen fun _ => ⟨rfl, rfl⟩) result

/-! ## Queries -/

/-- Definitions end at a recovery point that opens none. -/
lemma definitions_covers :
    Covers n (.star .definition) (definitions.accept inner)
      (nextIs (fun k => startsDefinition k || !isRecoveryPoint k) · = false) := by
  have type : Covers n (.seq .definable (.token .semicolon))
      ((Rule.seq definable separator).accept inner) anything :=
    .seq definable_covers (leads_token fun _ => rfl) separator_covers
  refine .many_free starts_definition.not_nil (.either ?_ ?_)
    (leads_of_starts starts_definition ?_)
  · refine .congr (.seq starts_definable) type ?_
    intro k hk ms
    fin_cases hk <;> rfl
  · exact .congr_first (function_covers g) fun _ => rfl
  · intro k hk _
    fin_cases hk <;> rfl

/-- The keyword of a schema decides that a query is one, which ends where definitions do. -/
lemma querySchema_covers :
    Covers n .schema
      ((Rule.branch (nextIs Kind.isSchemaKeyword) querySchema queryPipeline).accept inner)
      (nextIs (fun k => startsDefinition k || !isRecoveryPoint k) · = false) := by
  have schema : Covers n .schema (querySchema.accept inner)
      (nextIs (fun k => startsDefinition k || !isRecoveryPoint k) · = false) := by
    refine .takeThen (.congr (.seq starts_definition)
      ((definitions_covers g).imp fun _ => derives_star_of_plus) ?_)
    intro k hk ms
    fin_cases hk <;> rfl
  refine .congr starts_schema schema ?_
  intro k hk ms
  fin_cases hk <;> rfl

/-- The keyword of a stage decides that a query is a pipeline, which ends where stages do. -/
lemma queryPipeline_covers :
    Covers n (.plus .stage)
      ((Rule.branch (nextIs Kind.isSchemaKeyword) querySchema queryPipeline).accept inner)
      fun l => nextIs Kind.isStageKeyword l = false ∧ nextIs (!isRecoveryPoint ·) l = false := by
  refine .congr (.seq starts_stage) ((stages_covers g).imp fun _ => derives_star_of_plus) ?_
  intro k hk ms
  fin_cases hk <;> rfl

/-- A schema without an end is read as a query. -/
lemma query_covers_schema :
    Covers n .schema (query.accept inner) fun l =>
      nextIs (fun k => startsDefinition k || !isRecoveryPoint k) l = false ∧
        next .kwEnd l = false :=
  .thenEmpty ((querySchema_covers g).mono fun _ hl => hl.1) (covers_branch_skip fun _ hl => hl.2)

/-- A pipeline without an end is read as a query where no other stage comes next. -/
lemma query_covers_pipeline :
    Covers n (.plus .stage) (query.accept inner) fun l =>
      (nextIs Kind.isStageKeyword l = false ∧ nextIs (!isRecoveryPoint ·) l = false) ∧
        next .kwEnd l = false :=
  .thenEmpty ((queryPipeline_covers g).mono fun _ hl => hl.1)
    (covers_branch_skip fun _ hl => hl.2)

/-- A query with an end is read as one, whatever comes next. -/
lemma query_covers_end :
    Covers n (.seq (.either .schema (.plus .stage)) (.seq (.token .kwEnd) (.token .semicolon)))
      (query.accept inner) anything := by
  have head : Covers n (.either .schema (.plus .stage))
      ((Rule.branch (nextIs Kind.isSchemaKeyword) querySchema queryPipeline).accept inner)
      (next .kwEnd · = true) := by
    refine .either ((querySchema_covers g).mono ?_) ((queryPipeline_covers g).mono ?_)
    · exact imp_of_next fun _ => rfl
    · exact imp_of_next fun _ => ⟨rfl, rfl⟩
  have ended : Covers n (.seq (.token .kwEnd) (.token .semicolon))
      ((Rule.seq .take (expect .semicolon .semicolon)).accept inner) anything :=
    .takeThen expect_covers
  refine .seq head (leads_tokenThen fun _ => rfl) ?_
  exact .congr_first ended fun _ => rfl

end

end Grammar

end TypeqlAssist

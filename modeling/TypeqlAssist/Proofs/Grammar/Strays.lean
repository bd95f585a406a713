import TypeqlAssist.Proofs.Grammar.Turns

/-!
# Stray words

Statements and definitions read their subjects and constraints so that a label behind them is one of
their words, or stands behind something that may precede a stray word. So a document with a label
behind its tokens has the tree of the document alone, but for this stray word
(`readDocument_twins`).
-/

namespace TypeqlAssist

namespace Grammar

open TypeqlAssist.Tree

variable {u : Token} {ts : List Token} {inner inner' : Symbol → List Token → Parsed} {test : Test}
  {p q : Rule} {k : Kind} {mode : Mode} {ns : List Tree} {wanted : Wanted}

/-! ## What is next -/

/-- The next token is of a kind, with the word behind all tokens, too. -/
lemma cons_of_next {k : Kind} (pass : next k (.of ts) = true) :
    ∃ t us, ts = t :: us ∧ t.kind = k := by
  obtain ⟨t, us, e, ht⟩ := (opens_next (A := (· == k)) (beq_self_eq_true k)).exists_cons pass
  exact ⟨t, us, e, eq_of_beq ht⟩

/-- The word behind all tokens does not change whether a kind is next. -/
lemma next_word (k : Kind) (ne : ts ≠ []) : next k (.of (ts ++ [u])) = next k (.of ts) := by
  obtain ⟨t, us, rfl⟩ := List.exists_cons_of_ne_nil ne
  rfl

/-- The word behind all tokens does not change whether one of some kinds is next. -/
lemma nextIs_word (f : Kind → Bool) (ne : ts ≠ []) :
    nextIs f (.of (ts ++ [u])) = nextIs f (.of ts) := by
  obtain ⟨t, us, rfl⟩ := List.exists_cons_of_ne_nil ne
  rfl

/-- The second token is no label that the question asks for. -/
lemma nextThen_word (hu : u.kind = .label) {f : Kind → Bool} (hf : f .label = false) (ne : ts ≠ []) :
    nextThen k f (.of (ts ++ [u])) = nextThen k f (.of ts) := by
  match ts with
  | [] => exact absurd rfl ne
  | [t] => simp [nextThen, Lookahead.of, hu, hf]
  | _ :: _ :: _ => rfl

/-! ## What is read in front of the word -/

/-- The last of some nodes may stand in front of a stray word, behind a gap. -/
def Precedes (u : Token) (ns : List Tree) : Prop :=
  ∃ xs n, ns = xs ++ [n] ∧ n.kind.precedesStray = true ∧ n.stop < u.start

/-- What may stand in front of the stray word is the same without it and in front of it. -/
lemma Precedes.leaves (h : Precedes u ns) : Leaves u ns ns := by
  obtain ⟨xs, n, rfl, hn, stop⟩ := h
  exact .complete hn stop nofun

/-- What stands before the last node does not matter to the word. -/
lemma Precedes.append (h : Precedes u ns) (ms : List Tree) : Precedes u (ms ++ ns) := by
  obtain ⟨xs, n, rfl, hn, stop⟩ := h
  exact ⟨ms ++ xs, n, (List.append_assoc _ _ _).symm, hn, stop⟩

/-- A token that is taken may stand in front of the stray word. -/
lemma Precedes.leaf {t : Token} (hts : InFront u (t :: ts)) (ht : t.kind.precedesStray = true) :
    Precedes u [Tree.leaf t] :=
  ⟨[], Tree.leaf t, rfl, ht, hts.gap t (.head _)⟩

/-- A node that is not stretched stops with its last child. -/
lemma Precedes.enclosed {eof offset : Nat} {rest : List Token} (closed : isOpenEnded k = false)
    (hk : k.precedesStray = true) (last : ∀ n ∈ ns.getLast?, n.stop < u.start) (ne : ns ≠ []) :
    Precedes u [enclosed eof k offset ns rest] := by
  refine ⟨[], _, rfl, hk, ?_⟩
  have stop := last _ (List.getLast?_eq_some_getLast ne)
  simpa [Grammar.enclosed, enclose, closed, List.getLast?_eq_some_getLast ne] using stop

/-- A rule that reads all tokens and leaves the word ends with what may stand in front of it. -/
def Completes (u : Token) (inner inner' : Symbol → List Token → Parsed) (p : Rule)
    (ts : List Token) : Prop :=
  (p.run u.start inner ts).rest = [] → (p.run u.stop inner' (ts ++ [u])).rest ≠ [] →
    Precedes u (p.run u.start inner ts).nodes

/-- Where something is absent, a token is left. -/
lemma Completes.missing (ne : ts ≠ []) : Completes u inner inner' (.missing wanted) ts :=
  fun rest => absurd rest ne

/-- A token that is taken completes its rule. -/
lemma Completes.take {t : Token} (hts : InFront u (t :: ts)) (ht : t.kind.precedesStray = true) :
    Completes u inner inner' .take (t :: ts) := by
  rintro ⟨⟩ _
  exact .leaf hts ht

/-- A branch is complete where the side that is taken is. -/
lemma Completes.branch (same : test (.of (ts ++ [u])) = test (.of ts))
    (hp : test (.of ts) = true → Completes u inner inner' p ts)
    (hq : test (.of ts) = false → Completes u inner inner' q ts) :
    Completes u inner inner' (.branch test p q) ts :=
  branch_sides (S := fun a b => a.rest = [] → b.rest ≠ [] → Precedes u a.nodes) same hp hq

/-- A rule behind a token that reads the word if no other token is left. -/
lemma Completes.takeThen {t : Token} (hu : u.kind = .label)
    (hi' : ∀ s ts, (inner' s ts).rest <:+ ts) (reads : p.reads ⟨some .label, none⟩ = true)
    (hp : ts ≠ [] → Completes u inner inner' p ts) :
    Completes u inner inner' (.seq .take p) (t :: ts) := by
  intro rest left
  cases ts with
  | nil => exact absurd (Rule.rest_of_reads u.stop reads hu hi') left
  | cons v ts => exact (hp (List.cons_ne_nil v ts) rest left).append [Tree.leaf t]

/-- A type is complete with its label or its role. -/
lemma typeRef_completes (hts : InFront u ts) (ne : ts ≠ []) :
    Completes u inner inner' typeRef ts := by
  intro rest _
  obtain ⟨t, ts, rfl⟩ := List.exists_cons_of_ne_nil ne
  refine .enclosed rfl rfl (fun n hn => ?_) (List.cons_ne_nil _ _)
  cases pass : nextThen .colon (· == .label) (.of ts) with
  | false =>
    simp only [typeRef, Rule.run, pass, Parsed.followedBy] at rest hn
    cases rest
    cases hn
    exact hts.gap t (.head _)
  | true =>
    obtain ⟨c, ts, rfl, _⟩ := found_nextThen.exists_cons pass
    cases ts with
    | nil => cases (Bool.and_eq_true_iff.mp pass).2
    | cons l ts =>
      simp only [typeRef, Rule.run, pass, Parsed.followedBy] at rest hn
      cases rest
      cases hn
      exact hts.gap l (by simp)

/-- A token that is next completes the rule that takes it. -/
lemma take_completes (hts : InFront u ts) (hk : k.precedesStray = true)
    (pass : next k (.of ts) = true) : Completes u inner inner' .take ts := by
  obtain ⟨t, us, rfl, ht⟩ := cons_of_next pass
  exact .take hts (ht ▸ hk)

/-- What stands for a type is complete where tokens are left for it. -/
lemma typeOrVariable_completes (hts : InFront u ts) (ne : ts ≠ []) :
    Completes u inner inner' typeOrVariable ts := by
  refine .branch (nextIs_word _ ne) (fun _ => typeRef_completes hts ne) fun _ => ?_
  exact .branch (next_word _ ne) (take_completes hts rfl) fun _ => .missing ne

/-- An optional token that is read may stand in front of a stray word. -/
lemma optional_precedes {ks : List Kind} (hts : InFront u ts) (ne : ts ≠ [])
    (hk : ∀ k ∈ ks, k.precedesStray = true)
    (rest : ((Rule.branch (nextIs (oneOf ks)) .take .skip).run u.start inner ts).rest = []) :
    Precedes u ((Rule.branch (nextIs (oneOf ks)) .take .skip).run u.start inner ts).nodes := by
  obtain ⟨t, ts, rfl⟩ := List.exists_cons_of_ne_nil ne
  rw [Rule.run] at rest ⊢
  split at rest
  next pass =>
    rw [if_pos pass]
    obtain ⟨k, first, some⟩ := nextIs_iff.mp pass
    cases rest
    cases first
    exact .leaf hts (hk _ (List.contains_iff_mem.mp some))
  next => cases rest

/-- A type constraint is complete with its type, for its keyword alone would read the word. -/
lemma typeConstraint_completes (hu : u.kind = .label) (hi' : ∀ s ts, (inner' s ts).rest <:+ ts)
    (hts : InFront u ts) (ne : ts ≠ []) : Completes u inner inner' typeConstraint ts := by
  obtain ⟨t, ts, rfl⟩ := List.exists_cons_of_ne_nil ne
  exact .takeThen hu hi' rfl (typeOrVariable_completes hts.tail)

/-- The attribute of a thing is complete with its type, its value or its variable. -/
lemma ownedAttribute_completes (hi : ∀ s ts, (inner s ts).rest <:+ ts)
    (hi' : ∀ s ts, (inner' s ts).rest <:+ ts) (hts : InFront u ts) (ne : ts ≠ []) :
    Completes u inner inner' ownedAttribute ts := by
  refine .branch (next_word _ ne) (fun _ rest left => ?_) fun _ =>
    .branch (next_word _ ne) (take_completes hts rfl) fun _ => .missing ne
  simp only [Rule.run] at rest left ⊢
  have type : Completes u inner inner' typeRef ts := typeRef_completes hts ne
  have behind := hts.suffix (typeRef.run_suffix u.start hi ts)
  by_cases all : (typeRef.run u.start inner ts).rest = []
  · have complete := type all (Rule.ne_nil_of_run (r := .branch _ .take .skip) hi' left)
    rw [← List.append_nil (typeRef.run u.start inner ts).nodes] at complete
    rw [all]
    exact complete
  · exact (optional_precedes behind all (by decide) rest).append _

/-- A relation that is closed stops in front of the word. -/
lemma relation_leaves (hi : ∀ s ts, (inner s ts).rest <:+ ts) (hts : InFront u ts) :
    Leaves u (relation.run u.start inner ts).nodes (relation.run u.start inner ts).nodes := by
  have last (us : List Token) (suffix : us <:+ ts) :
      ∃ n, ((expect .rparen .closeParen).run u.start inner us).nodes = [n] ∧
        (n.kind = .error ∨ n.stop < u.start) := by
    rw [expect, Rule.run]
    split
    next pass =>
      obtain ⟨t, us, rfl, _⟩ := cons_of_next pass
      exact ⟨_, rfl, .inr (hts.gap t (suffix.subset (.head _)))⟩
    next => exact ⟨_, rfl, .inl rfl⟩
  obtain ⟨players, e⟩ : ∃ players, relation =
      .node .relation (.seq .take (.seq players (expect .rparen .closeParen))) := ⟨_, rfl⟩
  rw [e]
  simp only [Rule.run]
  have suffix := (players.run_suffix u.start hi _).trans (Rule.take.run_suffix u.start hi ts)
  obtain ⟨n, nodes, kind⟩ := last _ suffix
  simp only [Parsed.followedBy, nodes, ← List.append_assoc]
  generalize (Rule.take.run u.start inner ts).nodes ++ _ = ms
  by_cases closed : n.kind = .rparen
  · refine Precedes.leaves (.enclosed rfl rfl (fun m hm => ?_) (by simp))
    rw [List.getLast?_concat] at hm
    cases hm
    refine kind.resolve_left fun error => ?_
    rw [closed] at error
    cases error
  · refine @Leaves.relation u [] _ rfl ?_
    rw [enclosed, enclose, children_node, List.getLast?_concat]
    simpa using closed

/-- Constraints on things end with what may stand in front of a stray word, or lack a relation. -/
lemma thingConstraint_leaves (hu : u.kind = .label) (hi : ∀ s ts, (inner s ts).rest <:+ ts)
    (hi' : ∀ s ts, (inner' s ts).rest <:+ ts) (hts : InFront u ts) (ne : ts ≠ [])
    (rest : (thingConstraint.run u.start inner ts).rest = [])
    (left : (thingConstraint.run u.stop inner' (ts ++ [u])).rest ≠ []) :
    Leaves u (thingConstraint.run u.start inner ts).nodes
      (thingConstraint.run u.start inner ts).nodes := by
  rw [thingConstraint, Rule.run] at rest left ⊢
  rw [next_word _ ne] at left
  obtain ⟨t, us, rfl⟩ := List.exists_cons_of_ne_nil ne
  split at rest
  next isa =>
    rw [if_pos isa] at left ⊢
    exact (Completes.takeThen hu hi' rfl (typeOrVariable_completes hts.tail) rest left).leaves
  next noIsa =>
  rw [if_neg noIsa, Rule.run] at left ⊢
  rw [next_word _ ne] at left
  rw [Rule.run] at rest
  split at rest
  next has =>
    rw [if_pos has] at left ⊢
    exact (Completes.takeThen hu hi' rfl (ownedAttribute_completes hi hi' hts.tail) rest left).leaves
  next noHas =>
  rw [if_neg noHas, Rule.run] at ⊢
  rw [Rule.run] at rest
  split at rest
  next links =>
    rw [if_pos links]
    cases us with
    | nil =>
      obtain ⟨_, _, ⟨⟩, kind⟩ := cons_of_next links
      exact @Leaves.links u [] _ t kind (hts.gap t (.head _)) rfl (Nat.le_refl _)
    | cons v vs =>
      rw [Rule.run, Rule.run, Rule.run] at rest ⊢
      split at rest
      next opened =>
        rw [if_pos opened]
        exact (relation_leaves hi hts.tail).append [leaf t]
      next => cases rest
  next => exact absurd rest ne

/-! ## Loops of the grammar -/

/-- A turn that wraps a token leaves the word, or wraps the last token in front of it. -/
lemma stray_turn (hts : InFront u ts) (ne : ts ≠ []) :
    Turn u (Rule.stray.run u.start inner ts) (Rule.stray.run u.stop inner' (ts ++ [u])) := by
  obtain ⟨t, us, rfl⟩ := List.exists_cons_of_ne_nil ne
  cases us with
  | nil =>
    have width : t.start < t.stop := hts.spaced.width t (.head _)
    refine .ended rfl rfl ?_
    refine @Leaves.word u [] _ _ rfl rfl ?_ rfl
    simpa [enclosed, enclose, leaf] using width
  | cons v vs =>
    have less : 1 < (t :: v :: vs).length := Nat.lt_of_sub_pos (Nat.succ_pos vs.length)
    exact .same (List.cons_ne_nil v vs) (wrapped_append less)

/-- A comma at the end lacks a constraint, and in front of the word it lacks nothing. -/
lemma comma_turn {accepts : Kind → Bool} (hts : InFront u ts) (pass : next .comma (.of ts) = true)
    (word : nextIs accepts (.of [u]) = true) :
    Turn u
      ((Rule.seq .take (.branch (nextIs accepts) .skip (.missing wanted))).run u.start inner ts)
      ((Rule.seq .take (.branch (nextIs accepts) .skip (.missing wanted))).run u.stop inner'
        (ts ++ [u])) := by
  obtain ⟨t, us, rfl, kind⟩ := cons_of_next pass
  cases us with
  | nil =>
    have turn : (Rule.seq .take (.branch (nextIs accepts) .skip (.missing wanted))).run u.stop
        inner' ([t] ++ [u]) = (⟨[leaf t], [], [u]⟩ : Parsed).followedBy ⟨[], [], [u]⟩ :=
      congrArg (Parsed.followedBy _) (run_pass word)
    rw [turn]
    refine .ended rfl rfl ?_
    refine @Leaves.complete u [] (leaf t) [node .error u.start u.start []] ?_ ?_ ?_
    · exact (congrArg Kind.precedesStray kind).trans rfl
    · exact hts.gap t (.head _)
    · exact List.forall_mem_singleton.mpr ⟨rfl, Nat.le_refl _⟩
  | cons v vs =>
    let constraint : Rule := .branch (nextIs accepts) .skip (.missing wanted)
    have same : constraint.run u.stop inner' (v :: vs ++ [u]) =
          (constraint.run u.start inner (v :: vs)).before [u] ∧
        (constraint.run u.start inner (v :: vs)).rest = v :: vs := by
      have first : nextIs accepts (.of (v :: vs ++ [u])) = nextIs accepts (.of (v :: vs)) := rfl
      cases accept : nextIs accepts (.of (v :: vs)) with
      | true =>
        rw [run_pass accept, run_pass (first.trans accept)]
        exact ⟨rfl, rfl⟩
      | false =>
        rw [run_fail accept, run_fail (first.trans accept)]
        exact ⟨rfl, rfl⟩
    refine .same ?_ (congrArg (Parsed.followedBy ⟨[leaf t], [], v :: vs ++ [u]⟩) same.1)
    exact fun none => List.cons_ne_nil v vs (same.2.symm.trans none)

/-- A constraint, a comma or a stray word is next. -/
def atConstraint (accepts : Kind → Bool) : Test :=
  nextIs fun k => k == .comma || accepts k || k == .label

section

variable (hu : u.kind = .label) (g : Guarded inner) (g' : Guarded inner')
  (reads : ∀ s, Reads u.start (inner s)) (reads' : ∀ s, Reads u.stop (inner' s))
include hu reads reads'

/-- A variable alone takes labels as strays. -/
lemma undecided_strayLoop : StrayLoop u inner inner' (next .label) .stray where
  consumes := consumes_stray found_next
  consumes' := consumes_stray found_next
  reads _ := Rule.run_reading trivial reads (by decide)
  reads' _ := Rule.run_reading trivial reads' (by decide)
  first _ _ := rfl
  word := by rw [Lookahead.of_label hu]; rfl
  stray := rfl
  turn ts hts pass := by
    obtain ⟨t, us, rfl, _⟩ := cons_of_next pass
    exact stray_turn hts (List.cons_ne_nil t us)

include g g'

/-- Constraints take labels as strays. -/
lemma constraints_strayLoop {accepts : Kind → Bool} (label : accepts .label = false)
    (steady : Steady u.start inner p) (steady' : Steady u.stop inner' p) (hk : .error ∉ p.kinds)
    (consumes : Consumes (nextIs accepts · = true) (p.run u.start inner))
    (consumes' : Consumes (nextIs accepts · = true) (p.run u.stop inner'))
    (turn : ∀ ts, InFront u ts → ts ≠ [] →
      Turn u (p.run u.start inner ts) (p.run u.stop inner' (ts ++ [u]))) :
    StrayLoop u inner inner' (atConstraint accepts) (constraintTurn accepts p) where
  consumes := by
    cases constraints_steady g steady consumes with
    | many turn _ => exact turn
  consumes' := by
    cases constraints_steady g' steady' consumes' with
    | many turn _ => exact turn
  reads _ := Rule.run_reading trivial reads (by simpa [constraintTurn, Rule.kinds] using hk)
  reads' _ := Rule.run_reading trivial reads' (by simpa [constraintTurn, Rule.kinds] using hk)
  first _ _ := rfl
  word := by simp [Lookahead.of_label hu, atConstraint, nextIs]
  stray := by
    have noComma : next .comma (.of [u]) = false := by rw [Lookahead.of_label hu]; rfl
    have noConstraint : nextIs accepts (.of [u]) = false := by
      rw [Lookahead.of_label hu]
      exact label
    change (if next .comma (.of [u]) then _ else if nextIs accepts (.of [u]) then _ else _) = _
    rw [noComma, noConstraint]
    rfl
  turn ts hts pass := by
    have ne : ts ≠ [] := by
      rintro rfl
      cases pass
    refine .branch (next_word _ ne) (fun comma => ?_) fun _ => ?_
    · exact comma_turn hts comma (by simp [Lookahead.of_label hu, nextIs])
    · exact .branch (nextIs_word _ ne) (fun _ => turn ts hts ne) fun _ => stray_turn hts ne

/-! ## Statements and definitions -/

/-- Constraints on a type take labels as strays. -/
lemma typeConstraints_strayLoop : StrayLoop u inner inner' (atConstraint Kind.isTypeConstraint)
    (constraintTurn Kind.isTypeConstraint typeConstraint) := by
  refine constraints_strayLoop hu g g' reads reads' rfl typeConstraint_steady typeConstraint_steady
    (by decide) (typeConstraint_consumes g) (typeConstraint_consumes g') fun ts hts ne => ?_
  refine .of_settled hu g'.suffix rfl typeConstraint_steady typeConstraint_steady
    fun rest left => ?_
  exact (typeConstraint_completes hu g'.suffix hts ne rest left).leaves

/-- The constraints of a definition take labels as strays. -/
lemma definableConstraints_strayLoop : StrayLoop u inner inner' (atConstraint Kind.isTypeConstraint)
    (constraintTurn Kind.isTypeConstraint (.node .typeConstraint typeConstraint)) := by
  refine constraints_strayLoop hu g g' reads reads' rfl (.node typeConstraint_steady)
    (.node typeConstraint_steady) (by decide) (typeConstraint_consumes g).node
    (typeConstraint_consumes g').node fun ts hts ne => ?_
  refine .of_settled hu g'.suffix rfl (.node typeConstraint_steady)
    (.node typeConstraint_steady) fun rest left => ?_
  obtain ⟨xs, n, nodes, hn, stop⟩ := typeConstraint_completes hu g'.suffix hts ne rest left
  refine Precedes.leaves (.enclosed rfl rfl (fun m hm => ?_) ?_)
  · rw [nodes, List.getLast?_concat] at hm
    cases hm
    exact stop
  · rw [nodes]
    exact List.concat_ne_nil n xs

/-- Constraints on a thing take labels as strays. -/
lemma thingConstraints_strayLoop : StrayLoop u inner inner' (atConstraint Kind.isThingConstraint)
    (constraintTurn Kind.isThingConstraint thingConstraint) := by
  refine constraints_strayLoop hu g g' reads reads' rfl (thingConstraint_steady g)
    (thingConstraint_steady g') (by decide) (thingConstraint_consumes g)
    (thingConstraint_consumes g') fun ts hts ne => ?_
  exact .of_settled hu g'.suffix rfl (thingConstraint_steady g)
    (thingConstraint_steady g') (thingConstraint_leaves hu g.suffix g'.suffix hts ne)

omit g reads reads' in
/-- A variable at the front is the subject of its statement. -/
lemma subject_turn (hts : InFront u ts) (pass : next .var (.of ts) = true) :
    Turn u (Rule.take.run u.start inner ts) (Rule.take.run u.stop inner' (ts ++ [u])) :=
  .of_settled hu g'.suffix rfl .take .take fun rest left =>
    (take_completes (k := .var) hts rfl pass rest left).leaves

omit g reads reads' in
/-- A type at the front is the subject of its statement. -/
lemma typeRef_turn (hts : InFront u ts) (ne : ts ≠ []) :
    Turn u (typeRef.run u.start inner ts) (typeRef.run u.stop inner' (ts ++ [u])) :=
  .of_settled hu g'.suffix rfl (Rule.isStraight.steady rfl)
    (Rule.isStraight.steady rfl) fun rest left => (typeRef_completes hts ne rest left).leaves

variable (width : u.start < u.stop)
include width

/-- A statement about a type reads the same with the word behind it, but for the stray word. -/
lemma statementType_twins :
    Twins u (statementType.run u.start inner) (statementType.run u.stop inner') := by
  have loop := typeConstraints_strayLoop hu g g' reads reads'
  refine ⟨loop.alone hu rfl (Rule.rest_of_reads u.stop rfl hu g'.suffix), fun ts hts ne => ?_⟩
  refine loop.outcome width hu rfl (fun _ => Rule.run_reading trivial reads (by decide))
    (fun _ => Rule.run_reading trivial reads' (by decide)) hts ne ?_
  exact .branch (next_word _ ne) (subject_turn hu g' hts) fun _ => typeRef_turn hu g' hts ne

omit g in
/-- A statement that starts with a variable does with the word what the loop behind it does. -/
lemma variable_outcome {k : Kind} {test : Test} {p : Rule} (loop : StrayLoop u inner inner' test p)
    (takes : k.takesStrays = true) (hts : InFront u ts) (pass : next .var (.of ts) = true) :
    Outcome u ((Rule.node k (.seq .take (.many test p))).run u.start inner ts)
      ((Rule.node k (.seq .take (.many test p))).run u.stop inner' (ts ++ [u])) := by
  obtain ⟨t, us, rfl, _⟩ := cons_of_next pass
  exact loop.outcome width hu takes (fun _ => Rule.run_reading trivial reads (by decide))
    (fun _ => Rule.run_reading trivial reads' (by decide)) hts (List.cons_ne_nil t us)
    (subject_turn hu g' hts pass)

omit hu g g' reads reads' width in
/-- An expected token that may precede a stray completes its rule. -/
lemma expect_completes (hk : k.precedesStray = true) (hts : InFront u ts) (ne : ts ≠ []) :
    Completes u inner inner' (expect k wanted) ts :=
  .branch (next_word _ ne) (take_completes hts hk) fun _ => .missing ne

omit g reads reads' width in
/-- The subject of a definition, with its optional root kind. -/
lemma definition_turn (hts : InFront u ts) (ne : ts ≠ []) :
    Turn u ((Rule.seq (optional .rootKind) (expect .label .typeLabel)).run u.start inner ts)
      ((Rule.seq (optional .rootKind) (expect .label .typeLabel)).run u.stop inner' (ts ++ [u])) := by
  have label {ts : List Token} (hts : InFront u ts) (ne : ts ≠ []) :
      Completes u inner inner' (expect .label .typeLabel) ts := expect_completes rfl hts ne
  refine .of_settled hu g'.suffix rfl (Rule.isStraight.steady rfl)
    (Rule.isStraight.steady rfl) fun rest left => Precedes.leaves ?_
  have same := next_word (u := u) .rootKind ne
  cases root : next .rootKind (.of ts) with
  | true =>
    rw [Rule.run, optional, run_pass root] at rest ⊢
    rw [Rule.run, optional, run_pass (same.trans root)] at left
    obtain ⟨t, us, rfl, _⟩ := cons_of_next root
    exact Completes.takeThen hu g'.suffix rfl (label hts.tail) rest left
  | false =>
    rw [Rule.run, optional, run_fail root] at rest ⊢
    rw [Rule.run, optional, run_fail (same.trans root)] at left
    exact label hts ne rest left

/-- A definition reads the same with the word behind it, but for the stray word. -/
lemma definable_twins : Twins u (definable.run u.start inner) (definable.run u.stop inner') := by
  have loop := definableConstraints_strayLoop hu g g' reads reads'
  let grouped : Rule := .node .definable (.seq (.seq (optional .rootKind) (expect .label .typeLabel))
    (.many (atConstraint Kind.isTypeConstraint)
      (constraintTurn Kind.isTypeConstraint (.node .typeConstraint typeConstraint))))
  have group (eof : Nat) (inner : Symbol → List Token → Parsed) :
      definable.run eof inner = grouped.run eof inner := by
    funext ts
    simp only [definable, grouped, inOrder, constraints, atConstraint, constraintTurn, Rule.run,
      Parsed.followedBy, List.append_assoc]
  rw [group, group]
  refine ⟨loop.alone hu rfl ?_, fun ts hts ne => ?_⟩
  · simp [optional, expect, Rule.run, next, Lookahead.of, hu, Parsed.followedBy]
  exact loop.outcome width hu rfl (fun _ => Rule.run_reading trivial reads (by decide))
    (fun _ => Rule.run_reading trivial reads' (by decide)) hts ne (definition_turn hu g' hts ne)

variable (twins : ∀ s, Twins u (inner s) (inner' s))
include twins

/-- An assignment reads the same with the word behind it, or reads the word. -/
lemma statementAssignment_twins :
    Twins u (statementAssignment.run u.start inner) (statementAssignment.run u.stop inner') := by
  refine Rule.run_twins width hu reads reads' g'.suffix twins ?_ ?_ rfl (by decide)
    forHosts_statementAssignment
  · exact .node (.seq .take (.seq (variableList_steady g) (Rule.isStraight.steady rfl)))
  · exact .node (.seq .take (.seq (variableList_steady g') (Rule.isStraight.steady rfl)))

/-- A statement about a variable, a thing or a type. -/
lemma statement_twins :
    Twins u ((statement mode).run u.start inner) ((statement mode).run u.stop inner') := by
  have assignment := statementAssignment_twins hu g g' reads reads' width twins
  have type := statementType_twins hu g g' reads reads' width
  refine ⟨?_, fun ts hts ne => ?_⟩
  · -- a label is the subject of a statement about a type
    have others : next .kwLet (.of [u]) = false ∧ startsThing mode (.of [u]) = false ∧
        nextThen .var Kind.isTypeConstraint (.of [u]) = false ∧ next .var (.of [u]) = false := by
      rw [Lookahead.of_label hu]
      cases mode <;> decide
    rw [statement, Rule.run, run_fail others.1, run_fail others.2.1, run_fail others.2.2.1,
      run_fail others.2.2.2]
    exact type.alone.enclosed fun _ => stray_not_mem_node (by decide)
  · have thing : startsThing mode (.of (ts ++ [u])) = startsThing mode (.of ts) := by
      cases mode with
      | writing => exact next_word _ ne
      | reading => exact nextThen_word hu rfl ne
    refine .node_branch (next_word _ ne) (fun _ => ?_) fun _ => ?_
    · exact (assignment.outcome ts hts ne).enclosed (fun _ => stray_not_mem_node (by decide)) ne
    refine .node_branch thing (fun pass => ?_) fun _ => ?_
    · have var : next .var (.of ts) = true := by
        cases mode with
        | writing => exact pass
        | reading => exact (Bool.and_eq_true_iff.mp pass).1
      have loop := thingConstraints_strayLoop hu g g' reads reads'
      have outcome : Outcome u (statementThing.run u.start inner ts)
          (statementThing.run u.stop inner' (ts ++ [u])) :=
        variable_outcome hu g' reads reads' width loop rfl hts var
      exact outcome.enclosed (fun _ => stray_not_mem_node (by decide)) ne
    refine .node_branch (nextThen_word hu rfl ne) (fun _ => ?_) fun _ => ?_
    · exact (type.outcome ts hts ne).enclosed (fun _ => stray_not_mem_node (by decide)) ne
    refine .node_branch (next_word _ ne) (fun pass => ?_) fun _ => ?_
    · have loop := undecided_strayLoop hu reads reads'
      exact variable_outcome hu g' reads reads' width loop rfl hts pass
    · exact (type.outcome ts hts ne).enclosed (fun _ => stray_not_mem_node (by decide)) ne

end

/-! ## Documents -/

section

variable (hu : u.kind = .label) (width : u.start < u.stop)
include hu width

/-- A symbol reads the same with the word behind it, but for the stray word. -/
lemma runSymbol_twins (levels : Nat) (s : Symbol) :
    Twins u (runSymbol definitionOf u.start levels s) (runSymbol definitionOf u.stop levels s) := by
  induction levels generalizing s with
  | zero => exact .cutOff
  | succ levels ih =>
    have g := runSymbol_guarded u.start levels
    have g' := runSymbol_guarded u.stop levels
    have reads {eof : Nat} (s : Symbol) : Reads eof (runSymbol definitionOf eof levels s) :=
      fun _ => runSymbol_reading trivial error_not_mem_kinds.2 levels s
    refine Rule.run_twins width hu reads reads g'.suffix ih (definitionOf_steady g s)
      (definitionOf_steady g' s) ?_ (error_not_mem_kinds.2 s) (forHosts_definitionOf ?_ s)
    · rcases s with ⟨⟨⟩⟩ | ⟨⟩ <;> rfl
    · exact fun mode => statement_twins hu g g' reads reads width ih

/-- A document with a label behind its tokens differs only where this is a stray word. -/
theorem readDocument_twins : Twins u (readDocument u.start) (readDocument u.stop) := by
  have g := runSymbol_guarded u.start maxNesting
  have g' := runSymbol_guarded u.stop maxNesting
  have reads {eof : Nat} (s : Symbol) : Reads eof (runSymbol definitionOf eof maxNesting s) :=
    fun _ => runSymbol_reading trivial error_not_mem_kinds.2 maxNesting s
  have twins := runSymbol_twins hu width maxNesting
  refine Rule.run_twins width hu reads reads g'.suffix twins (queries_steady g) (queries_steady g')
    rfl error_not_mem_kinds.1 (forHosts_queries ?_ ?_)
  · exact fun mode => statement_twins hu g g' reads reads width twins
  · exact definable_twins hu g g' reads reads width

end

end Grammar

end TypeqlAssist

import TypeqlAssist.Proofs.Grammar.Settling

/-!
# Productions that take strays

Statements and definitions take a label that starts no constraint as a stray token, each in an error
node of its own. What all these productions hold follows from what each of them holds
(`Rule.run_hosts`), and their errors are gaps and single labels (`readDocument_strays`).
-/

namespace TypeqlAssist

/-- A production in which a word that starts nothing is a stray token. -/
def Kind.takesStrays : Kind → Bool
  | statement | statementThing | statementType | definable => true
  | _ => false

/-- What takes strays is a production. -/
lemma Kind.isProduction_of_takesStrays {k : Kind} (h : k.takesStrays = true) :
    k.isProduction = true := by
  cases k <;> first | rfl | cases h

namespace Grammar

open TypeqlAssist.Tree

/-- What takes strays is stretched to the end of the input. -/
lemma isOpenEnded_of_takesStrays {k : Kind} (takes : k.takesStrays = true) :
    isOpenEnded k = true := by
  cases k <;> first | rfl | cases takes

/-- What is not stretched takes no strays. -/
lemma takesStrays_of_closed {k : Kind} (h : isOpenEnded k = false) : k.takesStrays = false := by
  cases k <;> first | rfl | cases h

/-! ## What productions hold -/

/-- The children of every production that takes strays satisfy `Q`. -/
def Hosts (Q : List Tree → Prop) : List Tree → Prop :=
  AllNodes fun n => n.kind.takesStrays = true → Q n.children

variable {Q : List Tree → Prop} {eof : Nat} {inner : Symbol → List Token → Parsed}
  {ns ms : List Tree}
  {k : Kind} {p r : Rule}

/-- A rule that stretches no node makes no production that takes strays. -/
lemma Hosts.of_innerKinds (h : InnerKinds (isOpenEnded · = false) ns) (none : Q []) :
    Hosts Q ns := by
  intro n hn takes
  by_cases some : n.children = []
  · rwa [some]
  · rw [takesStrays_of_closed (h n hn some)] at takes
    cases takes

/-- A leaf holds nothing, whatever its kind. -/
lemma Hosts.leaves (ts : List Token) (none : Q []) : Hosts Q (ts.map leaf) :=
  AllNodes.leaves ts fun _ _ => none

/-- What a production holds is asked of those alone that take strays. -/
lemma Hosts.enclosed {offset : Nat} {rest : List Token} (h : Hosts Q ns)
    (own : k.takesStrays = true → Q ns) : Hosts Q [enclosed eof k offset ns rest] :=
  AllNodes.enclosed h fun _ _ => own

/-- No error takes strays. -/
lemma Hosts.wrapped {n : Nat} {cause : Cause} {ts : List Token} (none : Q []) :
    Hosts Q (wrapped eof cause n ts).nodes :=
  .enclosed (.leaves _ none) nofun

/-- The productions of a rule that take strays satisfy `R`. -/
def Rule.ForHosts (R : Kind → Rule → Prop) : Rule → Prop
  | skip | take | missing _ | stray | recover | nested _ => True
  | seq p q | branch _ p q => p.ForHosts R ∧ q.ForHosts R
  | joined p _ k q => k.takesStrays = false ∧ p.ForHosts R ∧ q.ForHosts R
  | node k p => if k.takesStrays then R k p else p.ForHosts R
  | many _ p => p.ForHosts R

namespace Rule

variable (R : Kind → Rule → Prop) (p q : Rule) (test : Test) (k : Kind)

/-- Where nothing is read, there is no production. -/
@[simp] lemma forHosts_skip : skip.ForHosts R := trivial

/-- A token is no production. -/
@[simp] lemma forHosts_take : take.ForHosts R := trivial

/-- A gap is no production. -/
@[simp] lemma forHosts_missing (wanted : Wanted) : (missing wanted).ForHosts R := trivial

/-- The error around a stray token is no production. -/
@[simp] lemma forHosts_stray : stray.ForHosts R := trivial

/-- The error that recovery makes is no production. -/
@[simp] lemma forHosts_recover : recover.ForHosts R := trivial

/-- The productions of a symbol are told by its own rule. -/
@[simp] lemma forHosts_nested (s : Symbol) : (nested s).ForHosts R := trivial

/-- The productions of two rules are those of each. -/
@[simp]
lemma forHosts_seq : (seq p q).ForHosts R ↔ p.ForHosts R ∧ q.ForHosts R := .rfl

/-- The productions of a branch are those of its rules. -/
@[simp]
lemma forHosts_branch : (branch test p q).ForHosts R ↔ p.ForHosts R ∧ q.ForHosts R := .rfl

/-- The node that joins two rules takes no strays. -/
@[simp]
lemma forHosts_joined :
    (joined p test k q).ForHosts R ↔ k.takesStrays = false ∧ p.ForHosts R ∧ q.ForHosts R := .rfl

/-- A production that takes strays is asked itself, and any other one for what is in it. -/
@[simp]
lemma forHosts_node :
    (node k p).ForHosts R ↔ if k.takesStrays then R k p else p.ForHosts R := .rfl

/-- The productions of a loop are those of its turns. -/
@[simp]
lemma forHosts_many : (many test p).ForHosts R ↔ p.ForHosts R := .rfl

end Rule

/-- What a rule reads is told by its productions that take strays. -/
theorem Rule.run_hosts (none : Q []) (hi : ∀ s ts, Hosts Q (inner s ts).nodes)
    (hosts : r.ForHosts fun k p => ∀ ts, Hosts Q ((node k p).run eof inner ts).nodes)
    (ts : List Token) : Hosts Q (r.run eof inner ts).nodes := by
  induction r generalizing ts with
  | skip => exact .nil
  | take =>
    cases ts with
    | nil => exact .nil
    | cons t ts => exact .leaves [t] none
  | missing wanted => exact .node .nil fun _ => none
  | stray =>
    cases ts with
    | nil => exact .nil
    | cons t ts => exact .wrapped none
  | recover =>
    cases ts with
    | nil => exact .nil
    | cons t ts => exact .wrapped none
  | nested s => exact hi s ts
  | seq p q ihp ihq => exact (ihp hosts.1 ts).append (ihq hosts.2 _)
  | node k p ih =>
    rw [forHosts_node] at hosts
    split at hosts
    next => exact hosts ts
    next others => exact .enclosed (ih hosts ts) fun takes => absurd takes others
  | branch test p q ihp ihq =>
    rw [run]
    split
    · exact ihp hosts.1 ts
    · exact ihq hosts.2 ts
  | many test p ih =>
    exact repeatWhile_nodes .nil (fun _ _ => .append) (fun ts _ => ih hosts ts) _ ts
  | joined p test k q ihp ihq =>
    obtain ⟨hk, hp, hq⟩ := hosts
    simp only [run]
    split
    · refine .enclosed ((ihp hp ts).append (ihq hq _)) fun takes => ?_
      rw [hk] at takes
      cases takes
    · exact ihp hp ts

/-! ## The productions of the grammar -/

section

variable {R : Kind → Rule → Prop}

/-- An expression holds nothing that takes strays. -/
lemma forHosts_statementAssignment : statementAssignment.ForHosts R := by
  simp [statementAssignment, variableList, commaSeparated, inOrder, expect, expectThen,
    Kind.takesStrays]

variable (hs : ∀ mode, (statement mode).ForHosts R)
include hs

/-- In patterns, only statements take strays. -/
lemma forHosts_patterns (mode : Mode) : (patterns mode).ForHosts R := by
  simp [patterns, pattern, keywordBlock, conjunction, blockBody, separator, Kind.takesStrays,
    hs]

/-- In nested productions, only statements take strays. -/
lemma forHosts_definitionOf (s : Symbol) : (definitionOf s).ForHosts R := by
  cases s with
  | block mode =>
    simp [definitionOf, block, inOrder, expect, forHosts_patterns hs]
  | expression =>
    simp [definitionOf, expression, operand, functionCall, commaSeparated, inOrder, expect,
      Kind.takesStrays]

/-- In stages, only statements take strays. -/
lemma forHosts_stages : stages.ForHosts R := by
  simp [stages, stage, clause, stageSelect, stageSort, stageCount, stageReduce, recoverUntil,
    variableList, commaSeparated, inOrder, expect, expectThen, Kind.takesStrays,
    forHosts_patterns hs]

/-- In a document, statements and definitions take strays. -/
lemma forHosts_queries (hd : definable.ForHosts R) : queries.ForHosts R := by
  have function : function.ForHosts R := by
    simp [function, functionParams, parameter, returnTypes, functionReturn, namedType, typeRef,
      variableList, commaSeparated, inOrder, expect, expectThen, optional, Kind.takesStrays,
      forHosts_stages hs]
  simp [queries, query, querySchema, queryPipeline, definitions, separator, recoverUntil, inOrder,
    expect, Kind.takesStrays, forHosts_stages hs, function, hd]

end

/-! ## Strays -/

/-- Every error node is a gap or wraps a single label. -/
def Strayed (cs : List Tree) : Prop :=
  ∀ c ∈ cs, c.kind = .error → c.children = [] ∨
    ∃ t : Token, t.kind = .label ∧ c.children = [leaf t] ∧ c.start = t.start

/-- This holds of some trees and of the productions in them that take strays. -/
structure Straying (ns : List Tree) : Prop where
  own : Strayed ns
  within : Hosts Strayed ns

/-- No tree is an error. -/
lemma Straying.nil : Straying [] :=
  ⟨nofun, .nil⟩

/-- The errors of two rows of trees are those of the one and those of the other. -/
lemma Straying.append (h : Straying ns) (g : Straying ms) : Straying (ns ++ ms) :=
  ⟨List.forall_mem_append.mpr ⟨h.own, g.own⟩, h.within.append g.within⟩

/-- Where no node is stretched, every error is a gap. -/
lemma Straying.of_innerKinds (h : InnerKinds (isOpenEnded · = false) ns) : Straying ns := by
  refine ⟨fun c hc e => .inl ?_, .of_innerKinds h nofun⟩
  by_contra some
  have closed := h c (mem_preorderAll_of_mem hc (by cases c; exact .head _)) some
  rw [e] at closed
  cases closed

/-- A label that is wrapped alone is a stray. -/
lemma Straying.stray {t : Token} {cause : Cause} (ht : t.kind = .label) (ts : List Token) :
    Straying (wrapped eof cause 1 (t :: ts)).nodes := by
  refine ⟨fun c hc _ => .inr ⟨t, ht, ?_⟩, .wrapped nofun⟩
  cases List.mem_singleton.mp hc
  exact ⟨rfl, rfl⟩

/-- A node around strays is no error itself. -/
lemma Straying.enclosed {offset : Nat} {rest : List Token} (h : Straying ns) (hk : k ≠ .error) :
    Straying [enclosed eof k offset ns rest] := by
  refine ⟨fun c hc e => ?_, h.within.enclosed fun _ => h.own⟩
  cases List.mem_singleton.mp hc
  exact absurd e hk

/-- A loop makes strays if its turns do. -/
lemma Straying.many {test : Test}
    (h : ∀ ts, test (.of ts) = true → Straying (p.run eof inner ts).nodes) (ts : List Token) :
    Straying ((Rule.many test p).run eof inner ts).nodes :=
  repeatWhile_nodes .nil (fun _ _ => .append) h _ ts

variable {accepts : Kind → Bool} {mode : Mode}

/-- A word is a stray among constraints only if it is a label. -/
lemma constraints_straying (hp : p.isClosed = true) (ts : List Token) :
    Straying ((constraints accepts p).run eof inner ts).nodes := by
  refine .many (fun ts pass => ?_) ts
  rw [Rule.run]
  split
  next => exact .of_innerKinds (Rule.run_closed rfl _ _ _)
  next noComma =>
    rw [Rule.run]
    split
    next => exact .of_innerKinds (Rule.run_closed hp _ _ _)
    next noConstraint =>
      obtain ⟨k, first, hk⟩ := nextIs_iff.mp pass
      cases ts with
      | nil => cases first
      | cons t ts =>
        refine .stray ?_ ts
        cases first
        simp_all [next, nextIs, Lookahead.of]

/-- A statement about a thing holds gaps and single labels. -/
lemma statementThing_straying (ts : List Token) :
    Straying (statementThing.run eof inner ts).nodes :=
  .enclosed (.append (.of_innerKinds (Rule.run_closed rfl _ _ _)) (constraints_straying rfl _))
    nofun

/-- A statement about a type holds gaps and single labels. -/
lemma statementType_straying (ts : List Token) :
    Straying (statementType.run eof inner ts).nodes :=
  .enclosed (.append (.of_innerKinds (Rule.run_closed rfl _ _ _)) (constraints_straying rfl _))
    nofun

/-- A definition holds gaps and single labels. -/
lemma definable_straying (ts : List Token) : Straying (definable.run eof inner ts).nodes := by
  refine .enclosed (.append ?_ (.append ?_ (constraints_straying rfl _))) nofun
  · exact .of_innerKinds (Rule.run_closed rfl _ _ _)
  · exact .of_innerKinds (Rule.run_closed rfl _ _ _)

/-- Whichever statement is read, it holds gaps and single labels. -/
lemma statement_straying (hi : ∀ s ts, Hosts Strayed (inner s ts).nodes) (ts : List Token) :
    Straying ((statement mode).run eof inner ts).nodes := by
  refine .enclosed ?_ (by decide)
  rw [Rule.run]
  split
  · refine ⟨fun c hc e => ?_, ?_⟩
    · cases List.mem_singleton.mp hc
      cases e
    · exact Rule.run_hosts Straying.nil.own hi forHosts_statementAssignment ts
  rw [Rule.run]
  split
  · exact statementThing_straying ts
  rw [Rule.run]
  split
  · exact statementType_straying ts
  rw [Rule.run]
  split
  · refine .append (.of_innerKinds (Rule.run_closed rfl _ _ _)) (.many (fun ts pass => ?_) _)
    obtain ⟨t, us, rfl, ht⟩ := (opens_next (A := (· == .label)) rfl).exists_cons pass
    exact .stray (eq_of_beq ht) us
  · exact statementType_straying ts

/-- With any number of levels left, a symbol holds no other errors where strays are taken. -/
lemma runSymbol_strays (levels : Nat) (s : Symbol) (ts : List Token) :
    Hosts Strayed (runSymbol definitionOf eof levels s ts).nodes := by
  induction levels generalizing s ts with
  | zero => exact .wrapped nofun
  | succ levels ih =>
    refine Rule.run_hosts nofun ih (forHosts_definitionOf (fun mode => ?_) s) ts
    exact fun ts => (statement_straying ih ts).within

/-- In a document, the errors of statements and definitions are gaps and single labels. -/
theorem readDocument_strays (eof : Nat) (ts : List Token) :
    Hosts Strayed (readDocument eof ts).nodes := by
  refine Rule.run_hosts nofun (runSymbol_strays maxNesting) (forHosts_queries ?_ ?_) ts
  · exact fun _ ts => (statement_straying (runSymbol_strays maxNesting) ts).within
  · exact fun ts => (definable_straying ts).within

end Grammar

end TypeqlAssist

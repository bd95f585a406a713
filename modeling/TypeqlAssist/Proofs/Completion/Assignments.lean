import TypeqlAssist.Proofs.Completion.Clauses
import TypeqlAssist.Proofs.Completion.Replacement
import TypeqlAssist.Proofs.Document.Typing

/-!
# Inside an assignment

An assignment holds expressions and calls of functions, and none of them has anything to say. So
from wherever in it the cursor stands, the way up leads to the statement around the assignment,
which suppresses all suggestions. Only a cursor in a name stops before: there the names of its kind
are offered (`complete_of_assignment`).
-/

namespace TypeqlAssist

open TypeqlAssist.Tree Grammar Location

/-- An assignment, or a production that it may hold. -/
def Kind.isAssigned : Kind → Bool
  | statementAssignment | expression | functionCall => true
  | _ => false

/-! ## Where assignments stand -/

/-- An assignment stands in a statement, and what stands in one may be assigned. -/
lemma nestings_of_assignment : ∀ p ∈ (.source, .query) :: nestings,
    (p.2 = .statementAssignment → p.1 = .statement) ∧
    (p.1.isAssigned = true → p.2.isAssigned = true) := by
  decide +kernel

variable {text : Text} {l m c : Location} {cursor : Nat}

/-- An assignment stands in a statement. -/
lemma statement_of_assignment (h : Reaches (ofRoot (parseTree text)) c) (step : HasChild m c)
    (hk : c.focus.kind = .statementAssignment) : m.focus.kind = .statement := by
  obtain ⟨s, path, e, _, pair⟩ := parent_of_text h (hk ▸ rfl) (hk ▸ nofun)
  obtain ⟨i, _, e'⟩ := hasChild_iff.mp step
  cases e.symm.trans e'
  exact (nestings_of_assignment _ pair).1 hk

/-- What has children inside of an assignment is a production that assignments hold. -/
lemma isAssigned_of_text (h : Reaches (ofRoot (parseTree text)) l) (some : l.focus.children ≠ [])
    (fine : l.focus.kind ≠ .error)
    (within : ∃ n ∈ l.focus :: l.ancestors, n.kind = .statementAssignment) :
    l.focus.kind.isAssigned = true := by
  let ks := Kind.all.filter Kind.isAssigned
  have mem (k : Kind) : k ∈ ks ↔ k.isAssigned = true := by
    simp [ks, List.mem_filter, Kind.mem_all]
  have closed : ∀ pair ∈ (.source, .query) :: nestings, pair.1 ∈ ks → pair.2 ∈ ks := by
    simp only [mem]
    exact fun pair hp => (nestings_of_assignment pair hp).2
  by_contra other
  have outside := ancestors_of_text closed h some fine (fun inside => other ((mem _).mp inside))
  obtain ⟨n, hn, e⟩ := within
  rcases List.mem_cons.mp hn with rfl | above
  · rw [e] at other
    exact other rfl
  · exact outside n above ((mem _).mpr (e ▸ rfl))

/-! ## The way up -/

namespace Completion

/-- A statement suppresses all suggestions if the child before the cursor is an assignment. -/
lemma consult_assignment {t : Tree} {preceding : List Kind} (hk : t.kind = .statement)
    (before : (t.childBefore? cursor).map kind = some .statementAssignment) :
    consult cursor ⟨t, preceding⟩ = .suppressed := by
  have rules : (Entry.refined statementRefinements undecidedStatementRules).rulesFor? t cursor =
      none := by
    simp only [Entry.rulesFor?, before]
    rfl
  simp only [consult, hk, table, rules]

/-- No rules are given for an assignment and what it may hold. -/
lemma table_of_isAssigned {k : Kind} : k.isAssigned = true → table k = none := by
  cases k <;> first | exact fun _ => rfl | exact nofun

/-- Only names have something to say on their own. -/
lemma table_of_not_isProduction {k : Kind} (h : k.isProduction = false) (var : k ≠ .var)
    (label : k ≠ .label) : table k = none := by
  cases k <;> first | rfl | exact absurd rfl var | exact absurd rfl label | cases h

/-- Within an assignment, only names have something to say. -/
lemma table_of_assignment (h : Reaches (ofRoot (parseTree text)) l)
    (below : l ≠ ofRoot (parseTree text))
    (within : ∃ n ∈ l.focus :: l.ancestors, n.kind = .statementAssignment)
    (var : l.focus.kind ≠ .var) (label : l.focus.kind ≠ .label) : table l.focus.kind = none := by
  cases production : l.focus.kind.isProduction with
  | false => exact table_of_not_isProduction production var label
  | true =>
    have mem := ((standing_of_text h).resolve_left below).2
    have fine := (Kind.ne_error_of_isProduction production).1
    refine table_of_isAssigned (isAssigned_of_text h (children_of_isProduction mem production) ?_
      within)
    intro e
    rw [e] at fine
    cases fine

/-- A node that no rules are given for is silent. -/
lemma consult_of_table {t : Tree} {preceding : List Kind} (h : table t.kind = none) :
    consult cursor ⟨t, preceding⟩ = .silent := by
  simp only [consult, h]

/--
From a silent node in an assignment, the way up ends at the statement around it and nothing is
collected.
-/
lemma climb_assignment (h : Reaches (ofRoot (parseTree text)) l)
    (within : ∃ n ∈ l.focus :: l.ancestors, n.kind = .statementAssignment)
    (clear : ∀ a ∈ l.ancestors, a.kind ≠ .error) (starts : l.focus.start < cursor)
    (stops : cursor ≤ l.focus.stop) (silent : table l.focus.kind = none)
    (preceding : List Kind) :
    climb (parseTree text) text cursor (contextsAlong l.focus preceding l.path) = none := by
  induction h generalizing preceding with
  | refl =>
    obtain ⟨n, hn, e⟩ := within
    cases List.mem_singleton.mp hn
    cases e
  | @tail m c hm step ih =>
    have orderly := (orderly_of_text text).reaches hm
    have ancestors := step.ancestors
    obtain ⟨i, _, path⟩ := hasChild_iff.mp step
    rw [path, climb_silent (consult_of_table silent)]
    by_cases own : c.focus.kind = .statementAssignment
    · -- the siblings behind the assignment start behind the cursor
      have statement := statement_of_assignment (hm.tail step) step own
      have before : (m.focus.childBefore? cursor).map kind = some .statementAssignment := by
        rw [HasChild.childBefore? step orderly starts stops, Option.map_some, own]
      cases m.path <;> simp only [contextsAlong, climb, consult_assignment statement before]
    · have above : ∃ n ∈ m.focus :: m.ancestors, n.kind = .statementAssignment := by
        obtain ⟨n, hn, e⟩ := within
        rw [ancestors] at hn
        rcases List.mem_cons.mp hn with rfl | hn
        · exact absurd e own
        · exact ⟨n, hn, e⟩
      rw [ancestors] at clear
      obtain ⟨fine, clear⟩ := List.forall_mem_cons.mp clear
      obtain ⟨first, last, _⟩ := orderly.laid.of_mem step.mem
      have assigned := isAssigned_of_text hm (List.ne_nil_of_mem step.mem) fine above
      exact ih above clear (Nat.lt_of_le_of_lt first starts) (Nat.le_trans stops last)
        (table_of_isAssigned assigned) _

/-- What one generator collects is offered, unless it is nothing. -/
lemma complete_of_generator {pos : Nat} (g : Generator)
    (climbed : climb (parseTree text) text (min pos text.byteSize)
      (contextsAt ((parseTree text).resolve pos) (min pos text.byteSize)) =
        some (g.candidates (parseTree text) text)) :
    complete (parseTree text) text pos =
      if g.block text = [] then none
      else some ⟨wordStart text (min pos text.byteSize), g.block text⟩ := by
  have kept : distinctBy (fun c : Candidate => (c.label, c.category)) (g.block text) =
      g.block text := distinctBy_of_nodup (g.nodup_block text)
  rw [g.candidates_parseTree] at climbed
  simp only [complete, resolve_min, climbed, kept, List.isEmpty_iff]

/-- A cursor in a token has a word of its kind in the document. -/
lemma wordsOf_ne_nil {pos : Nat} {k : Kind} (hk : k.isToken = true)
    (here : ((parseTree text).resolve pos).focus.kind = k) : wordsOf text k ≠ [] := by
  have isToken : ((parseTree text).resolve pos).focus.kind.isToken = true := here ▸ hk
  obtain ⟨t, ht, same, _⟩ := token_of_resolve isToken
  have kind : t.kind = k := (congrArg Token.kind same).trans here
  exact List.ne_nil_of_mem (mem_wordsOf.mpr ⟨t, ht, kind, rfl⟩)

/-- A cursor in a name is offered the names of its kind, wherever it stands. -/
lemma complete_of_name {pos : Nat} (g : Generator)
    (entry : table ((parseTree text).resolve pos).focus.kind = some (.rules [⟨[[]], [g], false⟩])) :
    complete (parseTree text) text pos =
      if g.block text = [] then none
      else some ⟨wordStart text (min pos text.byteSize), g.block text⟩ := by
  have fires (preceding : List Kind) :
      consult (min pos text.byteSize) ⟨((parseTree text).resolve pos).focus, preceding⟩ =
        .fires ⟨[[]], [g], false⟩ := by
    simp [consult, entry, Entry.rulesFor?, firstFiring?, Rule.fires]
  refine complete_of_generator g ((climb_fires (fires _) rfl).trans ?_)
  rw [Rule.candidates, List.flatMap_singleton]

/--
Within an assignment nothing is offered unless the cursor is in a name. In a variable, the variables
of the document are offered as fresh ones, if there is one with a name; in a label, the labels of
the document.
-/
theorem complete_of_assignment (text : Text) (pos : Nat)
    (within : ∃ n ∈ ((parseTree text).resolve pos).focus :: ((parseTree text).resolve pos).ancestors,
      n.kind = .statementAssignment) :
    (((parseTree text).resolve pos).focus.kind ≠ .var →
      ((parseTree text).resolve pos).focus.kind ≠ .label →
      complete (parseTree text) text pos = none) ∧
    (((parseTree text).resolve pos).focus.kind = .var →
      complete (parseTree text) text pos =
        if variableCandidates text 10 = [] then none
        else some ⟨wordStart text (min pos text.byteSize), variableCandidates text 10⟩) ∧
    (((parseTree text).resolve pos).focus.kind = .label →
      complete (parseTree text) text pos =
        some ⟨wordStart text (min pos text.byteSize), labelCandidates text⟩) := by
  refine ⟨fun var label => ?_, fun var => ?_, fun label => ?_⟩
  · rcases (resolve_isAt (orderly_of_text text) pos).2 with here | root
    · have silent := table_of_assignment here.reached here.below within var label
      have climbed : climb (parseTree text) text (min pos text.byteSize)
          (contextsAt ((parseTree text).resolve pos) (min pos text.byteSize)) = none :=
        climb_assignment here.reached within here.clear here.starts here.stops silent _
      simp only [complete, resolve_min, climbed]
    · rw [root] at within
      obtain ⟨n, hn, e⟩ := within
      cases List.mem_singleton.mp hn
      cases e
  · exact complete_of_name freshVariables (by rw [var]; rfl)
  · have some : labelCandidates text ≠ [] :=
      List.map_eq_nil_iff.not.mpr (wordsOf_ne_nil rfl label)
    have offered := complete_of_name .labels (by rw [label]; rfl)
    rwa [if_neg (by exact some)] at offered

/-- A call that is not finished, in an assignment in a block. -/
def unfinishedCall : Text :=
  "match not \x7b let $y = f($x, (1 + ".toList

/--
At the end of an unfinished call nothing is offered, and in the variable of its first argument the
variables of the document.
-/
theorem complete_of_assignment_call :
    (∃ n ∈ ((parseTree unfinishedCall).resolve 32).focus ::
        ((parseTree unfinishedCall).resolve 32).ancestors, n.kind = .statementAssignment) ∧
    complete (parseTree unfinishedCall) unfinishedCall 32 = none ∧
    (∃ n ∈ ((parseTree unfinishedCall).resolve 25).focus ::
        ((parseTree unfinishedCall).resolve 25).ancestors, n.kind = .statementAssignment) ∧
    complete (parseTree unfinishedCall) unfinishedCall 25 =
      some ⟨23, [.ofLabel "$y" .variableName 10, .ofLabel "$x" .variableName 10]⟩ := by
  have atEnd : ∃ n ∈ ((parseTree unfinishedCall).resolve 32).focus ::
      ((parseTree unfinishedCall).resolve 32).ancestors, n.kind = .statementAssignment := by
    decide +kernel
  have inName : ∃ n ∈ ((parseTree unfinishedCall).resolve 25).focus ::
      ((parseTree unfinishedCall).resolve 25).ancestors, n.kind = .statementAssignment := by
    decide +kernel
  obtain ⟨none, _⟩ := complete_of_assignment _ 32 atEnd
  obtain ⟨_, names, _⟩ := complete_of_assignment _ 25 inName
  refine ⟨atEnd, none (by decide +kernel) (by decide +kernel), inName, ?_⟩
  rw [names (by decide +kernel)]
  decide +kernel

end Completion

end TypeqlAssist

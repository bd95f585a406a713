import Mathlib.Data.Fintype.Defs
import TypeqlAssist.Proofs.Completion.Scenarios
import TypeqlAssist.Proofs.Completion.Trailing
import TypeqlAssist.Proofs.Document.Typing

/-!
# Completion of a word while it is typed

A word that is a stray in its production says nothing about what is offered, so the same is offered
in front of it and at its end. It does only where the word in front of it is no stray, too, and no
relation lacks its bracket there (`complete_of_typed`).
-/

namespace TypeqlAssist

open TypeqlAssist.Tree Grammar Location Lexer

namespace Completion

/-! ## What nodes say behind a kind -/

/-- The rule may fire behind a kind. -/
def Rule.admits (r : Rule) (k : Kind) : Bool :=
  r.suffixes.any fun s => s.isEmpty || s.getLast? == some k

/-- A rule that fires may do so behind the last kind. -/
lemma Rule.admits_of_fires {r : Rule} {preceding : List Kind} {k : Kind}
    (h : r.fires preceding = true) (last : preceding.getLast? = some k) : r.admits k = true := by
  obtain ⟨s, hs, ends⟩ := List.any_eq_true.mp h
  obtain ⟨front, rfl⟩ := List.isSuffixOf_iff_suffix.mp ends
  refine List.any_eq_true.mpr ⟨s, hs, ?_⟩
  cases s with
  | nil => rfl
  | cons j s =>
    rw [List.getLast?_append_of_ne_nil _ (List.cons_ne_nil _ _)] at last
    simp [last]

/-- Behind an error or a `links`, no production has anything to say. -/
lemma table_behind_gap : ∀ k ∈ Kind.all, k.isToken = false → ∀ e ∈ table k, ∀ r ∈ e.allRules,
    r.admits .error = false ∧ r.admits .kwLinks = false := by
  decide +kernel

/-- Behind what precedes a stray, no production but a relation offers labels. -/
lemma table_behind_word : ∀ k ∈ Kind.all, k.isToken = false → k ≠ .relation → ∀ e ∈ table k,
    ∀ r ∈ e.allRules, ∀ j ∈ Kind.all, j.precedesStray = true → r.admits j = true →
      .labels ∉ r.generators := by
  decide +kernel

/-- No entry asks for the kind of a stray, or of what precedes it. -/
lemma asked_of_table : ∀ k ∈ Kind.all, ∀ e ∈ table k, ∀ j ∈ e.asked,
    j ≠ .error ∧ j.precedesStray = false := by
  decide +kernel

variable {x y : Context} {p q : Nat} {root : Tree} {text : Text}

/-- An entry that does not ask for the child before the cursor gives the same rules. -/
lemma Entry.rulesFor?_of_not_asked {e : Entry} {t t' : Tree}
    (other : ∀ j ∈ e.asked, some j ≠ (t.childBefore? p).map kind)
    (other' : ∀ j ∈ e.asked, some j ≠ (t'.childBefore? q).map kind) :
    e.rulesFor? t' q = e.rulesFor? t p := by
  cases e with
  | rules rs => rfl
  | refined refinements otherwise =>
    have none {k : Option Kind} (h : ∀ j ∈ refinements.map Prod.fst, some j ≠ k) :
        refinements.find? (fun r => some r.1 == k) = none :=
      List.find?_eq_none.mpr fun r hr => by simpa using h r.1 (List.mem_map_of_mem hr)
    simp only [Entry.rulesFor?]
    rw [none other, none other']

/-- Nodes of one kind say the same behind the same kinds, with the same rules. -/
lemma consult_congr (kind : y.node.kind = x.node.kind) (preceding : y.preceding = x.preceding)
    (rules : ∀ e ∈ table x.node.kind, e.rulesFor? y.node q = e.rulesFor? x.node p) :
    consult q y = consult p x := by
  rw [consult, consult, kind, preceding]
  cases found : table x.node.kind with
  | none => rfl
  | some e => simp only [rules e found]

/-- On ways up beside each other, the nodes say the same. -/
lemma contextsAlong_beside {u : Token} {t t' : Tree} {preceding : List Kind} {path path' : List Step}
    (same : consult u.stop ⟨t', preceding⟩ = consult u.start ⟨t, preceding⟩)
    (beside : List.Forall₂ (Step.Beside u) path path') :
    List.Forall₂ (fun x y => consult u.stop y = consult u.start x)
      (contextsAlong t preceding path) (contextsAlong t' preceding path') := by
  induction beside generalizing t t' preceding with
  | nil => exact .cons same .nil
  | cons step _ ih =>
    refine .cons same ?_
    rw [step.before]
    refine ih (consult_congr step.kind rfl fun e _ => ?_)
    cases e with
    | rules => rfl
    | refined => simp only [Entry.rulesFor?, step.last]

/-- The nodes above a production say nothing behind an error or a `links`. -/
lemma climb_behind_gap {l : Location} (h : Reaches (ofRoot (parseTree text)) l)
    (hl : l.focus.kind.isToken = false) {preceding : List Kind} {k : Kind}
    (last : preceding.getLast? = some k) (gap : k = .error ∨ k = .kwLinks) :
    climb root text p (contextsAlong l.focus preceding l.path) = none ∨
      climb root text p (contextsAlong l.focus preceding l.path) = some [] := by
  refine climb_mute fun x hx => consult_mute fun e found r hr => ?_
  have production : x.node.kind.isToken = false := by
    rcases node_of_contextsAlong hx with e | above
    · rw [e]
      exact hl
    · exact isToken_ancestors h _ above
  obtain ⟨error, links⟩ := table_behind_gap _ (Kind.mem_all _) production e found r hr
  refine Bool.eq_false_iff.mpr fun fires => ?_
  obtain ⟨front, grown⟩ := (contextsAlong_pairwise _ _ _).1 x hx
  have ends : x.preceding.getLast? = some k := by
    rw [← grown, List.getLast?_append, last]
    rfl
  have admits := r.admits_of_fires fires ends
  rcases gap with rfl | rfl
  · rw [error] at admits
    cases admits
  · rw [links] at admits
    cases admits

/-- The rule behind a relation in a statement about a thing. -/
def relationRule : Completion.Rule :=
  ⟨[[.var], [.comma], [.relation]], [.keywords .thingConstraints], false⟩

/-- A statement about a thing offers constraints on things behind a relation. -/
lemma consult_behind_relation (statement : x.node.kind = .statement)
    (thing : (x.node.childBefore? p).map Tree.kind = some .statementThing)
    (ends : [.relation] <:+ x.preceding) : consult p x = .fires relationRule := by
  have rules : (Entry.refined statementRefinements undecidedStatementRules).rulesFor? x.node p =
      some thingStatementRules := by
    simp only [Entry.rulesFor?, thing]
    rfl
  have first : firstFiring? thingStatementRules x.preceding = some relationRule := by
    refine List.find?_cons_of_pos (List.any_eq_true.mpr ⟨[.relation], by simp, ?_⟩)
    exact List.isSuffixOf_iff_suffix.mpr ends
  simp only [consult, statement, table, rules, first]

/-! ## The end of a text -/

/-- What is collected at the end of a text. -/
def collectedAtEnd (text : Text) : Option (List Candidate) :=
  climb (parseTree text) text text.byteSize
    (contextsAt ((parseTree text).resolve text.byteSize) text.byteSize)

/-- What is offered at the end of a text is what is collected there, each candidate once. -/
lemma offeredAt_end (text : Text) :
    offeredAt text text.byteSize = (collectedAtEnd text).bind fun cs =>
      if (distinctBy Candidate.key cs).isEmpty then none
      else some (distinctBy Candidate.key cs) := by
  rw [offeredAt_eq, Nat.min_self]
  rfl

/-- Nothing is offered at the end of a text where nothing is collected. -/
lemma offeredAt_end_of_none (h : collectedAtEnd text = none ∨ collectedAtEnd text = some []) :
    offeredAt text text.byteSize = none := by
  rw [offeredAt_end]
  rcases h with e | e <;> rw [e] <;> rfl

end Completion

open Completion

variable {s w : Text} {l m : Location} {xs ys : List Tree} {e : Tree}

/-! ## In front of the word -/

namespace Completion

/-- The word stands behind another one that is an error of its own. -/
def Wrapped (s w : Text) : Prop :=
  ∃ e ∈ (wordAt s w).prev?, e.focus.kind = .error ∧ e.focus.start < e.focus.stop

/-- The word stands behind a relation without its closing bracket. -/
def Unclosed (s w : Text) : Prop :=
  ∃ e ∈ (wordAt s w).prev?, e.focus.kind = .relation ∧
    e.focus.children.getLast?.map Tree.kind ≠ some .rparen

instance (s w : Text) : Decidable (Wrapped s w) :=
  inferInstanceAs (Decidable (∃ e ∈ (wordAt s w).prev?,
    e.focus.kind = .error ∧ e.focus.start < e.focus.stop))

instance (s w : Text) : Decidable (Unclosed s w) :=
  inferInstanceAs (Decidable (∃ e ∈ (wordAt s w).prev?, e.focus.kind = .relation ∧
    e.focus.children.getLast?.map Tree.kind ≠ some .rparen))

end Completion

namespace Typed.Ways

/-- The sibling before the word is the last node that stands before it. -/
lemma prev? (h : Typed.Ways s w l m (ys ++ [e])) :
    (wordAt s w).prev? = some ⟨e, ⟨m.focus, ys.length⟩ :: m.path⟩ := by
  simp [Location.prev?, sibling?, h.path, Location.child?, h.holds]

/-- The word stands behind another one if the last node before it is an error with a width. -/
lemma wrapped_iff (h : Typed.Ways s w l m (ys ++ [e])) :
    Wrapped s w ↔ e.kind = .error ∧ e.start < e.stop := by
  simp [Wrapped, h.prev?]

/-- The word stands behind an open relation if the last node before it is one. -/
lemma unclosed_iff (h : Typed.Ways s w l m (ys ++ [e])) :
    Unclosed s w ↔ e.kind = .relation ∧ e.children.getLast?.map Tree.kind ≠ some .rparen := by
  simp [Unclosed, h.prev?]

/-- Some node stands before the word in its production. -/
lemma exists_last (h : Typed.Ways s w l m xs) : ∃ ys e, xs = ys ++ [e] := by
  have leaves := h.leaves
  generalize l.focus.children = cs at leaves
  cases leaves with
  | word | relation | complete => exact ⟨_, _, rfl⟩
  | @links xs e t => exact ⟨xs ++ [leaf t], e, (List.append_assoc xs [leaf t] [e]).symm⟩

/-- The node of the word leaves the offer to the production that holds it. -/
lemma climb_wordAt (h : Typed.Ways s w l m xs) (typed : Typed s w) {root : Tree} {text : Text}
    {pos : Nat} : climb root text pos (contextsAt (wordAt s w) pos) =
      climb root text pos (contextsAlong m.focus (xs.map Tree.kind) m.path) := by
  rw [contextsAt, typed.mem_tokenize.2.1, h.path]
  refine (climb_silent rfl).trans ?_
  rw [h.holds, List.take_left]
  congr 2
  exact List.append_nil _

/-- Without the word, the production is open behind its last child in front of the blank. -/
lemma opened (h : Typed.Ways s w l m xs) {ns zs : List Tree} {n : Tree}
    (split : l.focus.children = (ns ++ [n]) ++ zs) (last : n.stop < s.byteSize)
    (after : ∀ z ∈ zs, s.byteSize ≤ z.start) : Open s l.focus (ns ++ [n]) := by
  have laid := ((orderly_of_text s).reaches h.reached).laid
  rw [split] at laid
  have width {c : Tree} (hc : c ∈ ns ++ [n]) : c.start ≤ c.stop :=
    (laid.of_mem (List.mem_append_left _ hc)).2.2.2.2.le
  have before : ∀ c ∈ ns, c.stop ≤ n.start := fun c hc =>
    (List.pairwise_append.mp (List.pairwise_append.mp laid.pairwise).1).2.2 c hc n
      (List.mem_singleton_self n)
  have mem : n ∈ ns ++ [n] := List.mem_append_right _ (List.mem_singleton_self n)
  have starts := (laid.of_mem (List.mem_append_left zs mem)).1
  have widen := width mem
  refine ⟨?_, Kind.isProduction_of_takesStrays h.strays.takes, by omega, h.strays.stops, ?_, zs,
    split, after⟩
  · exact fun source => by simpa [source, Kind.takesStrays] using h.strays.takes
  · intro c hc
    have wide := width hc
    rcases List.mem_append.mp hc with front | e
    · have := before c front
      omega
    · cases List.mem_singleton.mp e
      omega

end Typed.Ways

/-! ## What is offered -/

/-- The word adds a label, and no variable. -/
lemma Typed.candidates_eq (h : Typed s w) {g : Completion.Generator} (hg : g ≠ .labels) :
    g.candidates (parseTree (s ++ w)) (s ++ w) = g.candidates (parseTree s) s := by
  have names : wordsOf (s ++ w) .var = wordsOf s .var := by
    refine wordsOf_append h.tokenize_eq fun t ht => ?_
    cases List.mem_singleton.mp ht
    exact nofun
  rw [Completion.Generator.candidates_parseTree, Completion.Generator.candidates_parseTree]
  cases g with
  | labels => exact absurd rfl hg
  | variableNames boost =>
    rw [Completion.Generator.block, Completion.Generator.block, variableCandidates,
      variableCandidates, names]
  | keywords => rfl

/-- What stands above a production that takes strays is no part of a relation. -/
lemma relation_closed : ∀ pair ∈ (.source, .query) :: nestings,
    pair.1 ∈ [Kind.relation, .rolePlayer, .typeRef] →
      pair.2 ∈ [Kind.relation, .rolePlayer, .typeRef] := by
  decide +kernel

/-- Productions that take strays are no parts of a relation. -/
lemma not_mem_of_takesStrays : ∀ k ∈ Kind.all, k.takesStrays = true →
    k.isToken = false ∧ k ≠ .error ∧ k ∉ [Kind.relation, .rolePlayer, .typeRef] := by
  decide

/-- A relation stands in a statement about a thing, and that in a statement. -/
lemma relation_of_nestings : ∀ pair ∈ (.source, .query) :: nestings,
    (pair.2 = .relation → pair.1 = .statementThing) ∧
      (pair.2 = .statementThing → pair.1 = .statement) := by
  decide +kernel

/-- A relation stands in a statement about a thing. -/
lemma statement_of_relation {text : Text} (h : Reaches (ofRoot (parseTree text)) l)
    (hk : l.focus.kind = .relation) :
    ∃ m q, HasChild m l ∧ m.focus.kind = .statementThing ∧ HasChild q m ∧
      q.focus.kind = .statement ∧ Reaches (ofRoot (parseTree text)) q := by
  rcases Relation.ReflTransGen.cases_tail h with rfl | ⟨m, hm, below⟩
  · cases hk
  have some : l.focus.children ≠ [] := by
    rcases standing_of_text h with rfl | ⟨_, mem⟩
    · cases hk
    · exact children_of_isProduction mem (by rw [hk]; rfl)
  have thing : m.focus.kind = .statementThing := by
    have pair := nestings_of_text hm below some (by rw [hk]; exact nofun)
    exact (relation_of_nestings _ pair).1 hk
  rcases Relation.ReflTransGen.cases_tail hm with rfl | ⟨q, hq, above⟩
  · cases thing
  have pair := nestings_of_text hq above (List.ne_nil_of_mem below.mem)
    (by rw [thing]; exact nofun)
  exact ⟨m, q, below, thing, above, (relation_of_nestings _ pair).2 thing, hq⟩

namespace Typed.Ways

variable {ns zs : List Tree} {n : Tree}

section

variable (h : Typed.Ways s w l m (ns ++ [n])) (typed : Typed s w)
  (precedes : n.kind.precedesStray = true) (split : l.focus.children = (ns ++ [n]) ++ zs)
include h typed precedes split

/-- The production says the same with the word and without it: it asks for neither. -/
lemma consult_host (starts : n.start < s.byteSize) (after : ∀ z ∈ zs, s.byteSize ≤ z.start)
    (preceding : List Kind) : consult (Text.byteSize (s ++ w)) ⟨m.focus, preceding⟩ =
      consult s.byteSize ⟨l.focus, preceding⟩ := by
  have before : l.focus.childBefore? s.byteSize = some n :=
    childBefore?_append (by rw [split, List.append_assoc]; rfl) starts after
  have before' : m.focus.childBefore? (Text.byteSize (s ++ w)) = some (strayOf (wordToken s w)) :=
    childBefore?_append h.holds typed.lt nofun
  refine consult_congr h.strays.kind rfl fun e found => ?_
  have asked := asked_of_table _ (Kind.mem_all _) e found
  refine Entry.rulesFor?_of_not_asked (fun j hj same => ?_) fun j hj same => ?_
  · change some j = (l.focus.childBefore? s.byteSize).map Tree.kind at same
    rw [before] at same
    cases Option.some.inj same
    rw [(asked _ hj).2] at precedes
    cases precedes
  · change some j = (m.focus.childBefore? (Text.byteSize (s ++ w))).map Tree.kind at same
    rw [before'] at same
    exact (asked _ hj).1 (Option.some.inj same)

/-- A rule that fires offers no labels, so it offers the same with the word and without it. -/
lemma candidates_of_fires {pos : Nat} {x : Context} {r : Completion.Rule}
    (hx : x ∈ contextsAlong l.focus ((ns ++ [n]).map Tree.kind) l.path)
    (fires : consult pos x = .fires r) :
    r.candidates (parseTree (s ++ w)) (s ++ w) = r.candidates (parseTree s) s := by
  obtain ⟨e, found, hr, fires⟩ := rule_of_consult fires
  obtain ⟨plain, fine, outside⟩ := not_mem_of_takesStrays _ (Kind.mem_all _) h.strays.takes
  obtain ⟨token, relation⟩ : x.node.kind.isToken = false ∧ x.node.kind ≠ .relation := by
    rcases node_of_contextsAlong hx with e | above
    · rw [e]
      exact ⟨plain, fun relation => outside (relation ▸ .head _)⟩
    · have part := ancestors_of_text relation_closed h.reached
        (by rw [split]; simp) fine outside _ above
      exact ⟨isToken_ancestors h.reached _ above, fun relation => part (relation ▸ .head _)⟩
  obtain ⟨front, grown⟩ := (contextsAlong_pairwise _ _ _).1 x hx
  have ends : x.preceding.getLast? = some n.kind := by
    rw [← grown]
    simp
  have labels := table_behind_word _ (Kind.mem_all _) token relation e found r hr n.kind
    (Kind.mem_all _) precedes (r.admits_of_fires fires ends)
  have same : ∀ g ∈ r.generators, g.candidates (parseTree (s ++ w)) (s ++ w) =
      g.candidates (parseTree s) s := fun g hg =>
    typed.candidates_eq fun e => labels (e ▸ hg)
  rw [Completion.Rule.candidates, Completion.Rule.candidates, List.flatMap_def, List.flatMap_def,
    List.map_congr_left same]

/-- Behind what precedes a stray, the same is collected with the word and without it. -/
lemma climb_eq (last : n.stop < s.byteSize) (after : ∀ z ∈ zs, s.byteSize ≤ z.start) :
    climb (parseTree (s ++ w)) (s ++ w) (Text.byteSize (s ++ w))
        (contextsAlong m.focus ((ns ++ [n]).map Tree.kind) m.path) =
      climb (parseTree s) s s.byteSize
        (contextsAlong l.focus ((ns ++ [n]).map Tree.kind) l.path) := by
  have opened := h.opened split last after
  have starts := (opened.before n (List.mem_append_right _ (List.mem_singleton_self n))).1
  have same := h.consult_host typed precedes split starts after ((ns ++ [n]).map Tree.kind)
  refine climb_forall₂_of_fires (fun x hx r => h.candidates_of_fires typed precedes split hx) ?_
  exact contextsAlong_beside (u := wordToken s w) same (h.above opened.starts)

end

/-- Behind a relation, constraints on things are collected with the word. -/
lemma climb_behind_relation (h : Typed.Ways s w l m (ys ++ [e])) (typed : Typed s w)
    (relation : e.kind = .relation) {root : Tree} {text : Text} :
    climb root text (Text.byteSize (s ++ w))
        (contextsAlong m.focus ((ys ++ [e]).map Tree.kind) m.path) =
      some KeywordSet.thingConstraints.candidates := by
  have below : HasChild m ⟨e, ⟨m.focus, ys.length⟩ :: m.path⟩ :=
    hasChild_iff.mpr ⟨ys.length, by simp [h.holds], rfl⟩
  obtain ⟨_, q, step, thing, above, statement, hq⟩ :=
    statement_of_relation (h.reached'.tail below) relation
  cases step.parent_unique below
  obtain ⟨i, _, path⟩ := hasChild_iff.mp above
  have orderly := (orderly_of_text (s ++ w)).reaches hq
  have within := ((orderly.child above).laid.of_mem
    (h.holds ▸ List.mem_append_right _ (List.mem_singleton_self _)))
  have before : q.focus.childBefore? (Text.byteSize (s ++ w)) = some m.focus :=
    above.childBefore? orderly (Nat.lt_of_le_of_lt within.1 typed.lt) within.2.1
  have ends : [.relation] <:+ (q.focus.children.take i).map Tree.kind ++
      (ys ++ [e]).map Tree.kind := by
    rw [List.map_append, ← List.append_assoc, List.map_singleton, relation]
    exact List.suffix_append _ _
  have fires : consult (Text.byteSize (s ++ w)) ⟨q.focus, (q.focus.children.take i).map Tree.kind ++
      (ys ++ [e]).map Tree.kind⟩ = .fires relationRule :=
    consult_behind_relation statement (by rw [before, Option.map_some, thing]) ends
  rw [path, climb_silent (by rw [consult, thing]; rfl)]
  exact climb_fires fires rfl

end Typed.Ways

/-- With the word and without it, a candidate replaces what follows the blank. -/
lemma Typed.wordStart_eq (h : Typed s w) :
    wordStart (s ++ w) (Text.byteSize (s ++ w)) = s.byteSize ∧
      wordStart s s.byteSize = s.byteSize := by
  have last : ∀ c ∈ s.getLast?, isWordChar c = false := by
    obtain ⟨c, hc, blank⟩ := h.blank
    intro d hd
    cases Option.some.inj (hc.symm.trans hd)
    exact isWordChar_of_isBlank blank
  have typed := wordStart_append [] h.word last
  have blank := wordStart_append (v := []) [] nofun last
  rw [List.append_nil] at typed
  rw [List.append_nil, List.append_nil] at blank
  exact ⟨typed, blank⟩

namespace Typed.Ways

variable {ns zs : List Tree} {n : Tree}

/-- At the end of the word, what is asked is its production and those above. -/
lemma collectedAtEnd_word (h : Typed.Ways s w l m xs) (typed : Typed s w) :
    collectedAtEnd (s ++ w) = climb (parseTree (s ++ w)) (s ++ w) (Text.byteSize (s ++ w))
      (contextsAlong m.focus (xs.map Tree.kind) m.path) :=
  h.climb_wordAt typed

/-- At the end of the blanks, what is asked is the same production without the word. -/
lemma collectedAtEnd_blank (h : Typed.Ways s w l m xs) {ms : List Tree}
    (opened : Open s l.focus ms) : collectedAtEnd s =
      climb (parseTree s) s s.byteSize (contextsAlong l.focus (ms.map Tree.kind) l.path) := by
  rw [collectedAtEnd, opened.resolve h.reached, contextsAt, opened.kindsUpTo]

/-- Behind an error, nothing is offered. -/
lemma offeredAt_behind_error (h : Typed.Ways s w l m (ys ++ [e])) (typed : Typed s w)
    (error : e.kind = .error) : offeredAt (s ++ w) (Text.byteSize (s ++ w)) = none := by
  have plain := (not_mem_of_takesStrays _ (Kind.mem_all _) h.strays.takes).1
  refine offeredAt_end_of_none ?_
  rw [h.collectedAtEnd_word typed]
  exact climb_behind_gap h.reached' (by rw [h.strays.kind]; exact plain) (k := .error)
    (by simp [error]) (.inl rfl)

/-- Where the word in front is no stray and no relation is open, the same is offered. -/
lemma offeredAt_eq (h : Typed.Ways s w l m xs) (typed : Typed s w) (wrapped : ¬ Wrapped s w)
    (unclosed : ¬ Unclosed s w) :
    offeredAt (s ++ w) (Text.byteSize (s ++ w)) = offeredAt s s.byteSize := by
  have plain := (not_mem_of_takesStrays _ (Kind.mem_all _) h.strays.takes).1
  have leaves := h.leaves
  generalize split : l.focus.children = cs at leaves
  cases leaves with
  | word _ error width => exact absurd (h.wrapped_iff.mpr ⟨error, width⟩) wrapped
  | relation relation last => exact absurd (h.unclosed_iff.mpr ⟨relation, last⟩) unclosed
  | @links xs gap t links stop error start =>
    -- nothing is offered, behind the keyword alone and behind the gap
    have parts : xs ++ [leaf t, gap] = xs ++ [leaf t] ++ [gap] := by
      rw [List.append_assoc]
      rfl
    rw [parts] at h split
    have opened := h.opened split stop fun z hz => by
      cases List.mem_singleton.mp hz
      exact start
    rw [h.offeredAt_behind_error typed error]
    refine (offeredAt_end_of_none ?_).symm
    rw [h.collectedAtEnd_blank opened]
    exact climb_behind_gap h.reached plain (k := .kwLinks) (by simp [leaf, links]) (.inr rfl)
  | @complete xs n zs precedes stop after =>
    rw [List.append_cons] at split
    have opened := h.opened split stop fun z hz => (after z hz).2
    rw [offeredAt_end, offeredAt_end, h.collectedAtEnd_word typed, h.collectedAtEnd_blank opened,
      h.climb_eq typed precedes split stop fun z hz => (after z hz).2]

end Typed.Ways

namespace Completion

/--
A word typed behind a blank, as a stray in its production, leaves the offer as it is without the
word, unless it stands behind another such word, where nothing is offered, or behind a relation
without its closing bracket, where the constraints on things are. What is offered replaces the word.
-/
theorem complete_of_typed (s w : Text) (h : Typed s w) :
    (¬ Wrapped s w ∧ ¬ Unclosed s w → ∃ offered : Option (List Candidate),
      complete (parseTree (s ++ w)) (s ++ w) (Text.byteSize (s ++ w)) =
        offered.map (Result.mk s.byteSize) ∧
      complete (parseTree s) s s.byteSize = offered.map (Result.mk s.byteSize)) ∧
    (Wrapped s w →
      complete (parseTree (s ++ w)) (s ++ w) (Text.byteSize (s ++ w)) = none) ∧
    (Unclosed s w →
      complete (parseTree (s ++ w)) (s ++ w) (Text.byteSize (s ++ w)) =
        some ⟨s.byteSize, KeywordSet.thingConstraints.candidates⟩) := by
  obtain ⟨l, m, xs, ways⟩ := h.exists_ways
  obtain ⟨ys, e, rfl⟩ := ways.exists_last
  obtain ⟨typed, blank⟩ := h.wordStart_eq
  rw [complete_eq_offeredAt typed, complete_eq_offeredAt blank]
  refine ⟨?_, ?_, ?_⟩
  · rintro ⟨wrapped, unclosed⟩
    exact ⟨_, by rw [ways.offeredAt_eq h wrapped unclosed], rfl⟩
  · intro wrapped
    rw [ways.offeredAt_behind_error h (ways.wrapped_iff.mp wrapped).1]
    rfl
  · intro unclosed
    rw [offeredAt_end, ways.collectedAtEnd_word h,
      ways.climb_behind_relation h (ways.unclosed_iff.mp unclosed).1]
    rfl

/-- Behind a variable, behind another word, and behind a role player. -/
theorem complete_of_typed_words :
    (Typed "match $x ".toList "is".toList ∧ ¬ Wrapped "match $x ".toList "is".toList ∧
      ¬ Unclosed "match $x ".toList "is".toList ∧
      (offeredAt "match $x ".toList 9).isSome = true ∧
      ∃ offered : Option (List Candidate),
        complete (parseTree "match $x is".toList) "match $x is".toList 11 =
          offered.map (Result.mk 9) ∧
        complete (parseTree "match $x ".toList) "match $x ".toList 9 =
          offered.map (Result.mk 9)) ∧
    (Typed "match $x foo ".toList "ba".toList ∧ Wrapped "match $x foo ".toList "ba".toList ∧
      complete (parseTree "match $x foo ba".toList) "match $x foo ba".toList 15 = none) ∧
    (Typed "match $x links ($y ".toList "ha".toList ∧
      Unclosed "match $x links ($y ".toList "ha".toList ∧
      complete (parseTree "match $x links ($y ha".toList) "match $x links ($y ha".toList 21 =
        some ⟨19, KeywordSet.thingConstraints.candidates⟩) := by
  have subject : Typed "match $x ".toList "is".toList := by decide +kernel
  have plain : ¬ Wrapped "match $x ".toList "is".toList ∧
      ¬ Unclosed "match $x ".toList "is".toList := by decide +kernel
  have word : Typed "match $x foo ".toList "ba".toList := by decide +kernel
  have wrapped : Wrapped "match $x foo ".toList "ba".toList := by decide +kernel
  have player : Typed "match $x links ($y ".toList "ha".toList := by decide +kernel
  have unclosed : Unclosed "match $x links ($y ".toList "ha".toList := by decide +kernel
  refine ⟨⟨subject, plain.1, plain.2, by decide +kernel, ?_⟩, ⟨word, wrapped, ?_⟩, player, unclosed,
    ?_⟩
  · exact (complete_of_typed "match $x ".toList "is".toList subject).1 plain
  · exact (complete_of_typed "match $x foo ".toList "ba".toList word).2.1 wrapped
  · exact (complete_of_typed "match $x links ($y ".toList "ha".toList player).2.2 unclosed

/-- A word does not always leave the offer as it is: behind another word it does not. -/
theorem not_complete_of_typed :
    ¬ ∀ s w : Text, Typed s w → ∃ offered : Option (List Candidate),
      complete (parseTree (s ++ w)) (s ++ w) (Text.byteSize (s ++ w)) =
        offered.map (Result.mk s.byteSize) ∧
      complete (parseTree s) s s.byteSize = offered.map (Result.mk s.byteSize) := by
  intro all
  obtain ⟨offered, typed, blank⟩ :=
    all "match $x foo ".toList "ba".toList (by decide +kernel)
  have none : complete (parseTree ("match $x foo ".toList ++ "ba".toList))
      ("match $x foo ".toList ++ "ba".toList)
      (Text.byteSize ("match $x foo ".toList ++ "ba".toList)) = none := by decide +kernel
  have some : (complete (parseTree "match $x foo ".toList) "match $x foo ".toList
      (Text.byteSize "match $x foo ".toList)).isSome = true := by decide +kernel
  rw [none] at typed
  rw [blank, ← typed] at some
  cases some

end Completion

end TypeqlAssist

import Mathlib.Data.List.Find
import TypeqlAssist.Proofs.Completion.Offers
import TypeqlAssist.Proofs.Completion.Scenarios
import TypeqlAssist.Proofs.Document.Parents

/-!
# Behind a statement

Behind a `;` a clause offers the variables of the document, and a clause that matches offers the
nested patterns too; the offer goes on further up. In a pipeline the next stage is added. A clause
of a function has a schema query above it instead, which takes the `;` for the end of a definition:
there the labels and the root kinds are added, and no stage (`candidates_behind_statement`).
-/

namespace TypeqlAssist

open TypeqlAssist.Tree Grammar Location

/-- A clause of statements. -/
def Kind.isClause : Kind → Bool
  | clauseMatch | clauseInsert | clauseDelete | clauseUpdate | clausePut => true
  | _ => false

/-- A clause is a production, and not the whole document. -/
lemma Kind.isProduction_of_isClause {k : Kind} :
    k.isClause = true → k.isProduction = true ∧ k ≠ .source := by
  cases k <;> decide

variable {text : Text} {l : Location} {pos : Nat}

/-! ## Where clauses stand -/

/-- A clause stands in a pipeline or a function, and a function in a schema query. -/
lemma nestings_of_clause : ∀ p ∈ (.source, .query) :: nestings,
    (p.2.isClause = true → p.1 = .queryPipeline ∨ p.1 = .function) ∧
    (p.2 = .function → p.1 = .querySchema) := by
  decide +kernel

/-- A clause stands in a pipeline, or in a function of a schema query. -/
lemma path_of_clause (h : Reaches (ofRoot (parseTree text)) l)
    (hk : l.focus.kind.isClause = true) :
    ∃ s path, l.path = s :: path ∧ (s.parent.kind = .queryPipeline ∨
      s.parent.kind = .function ∧ ∃ s' path', path = s' :: path' ∧
        s'.parent.kind = .querySchema) := by
  obtain ⟨production, below⟩ := Kind.isProduction_of_isClause hk
  obtain ⟨s, path, e, above, pair⟩ := parent_of_text h production below
  refine ⟨s, path, e, ?_⟩
  rcases (nestings_of_clause _ pair).1 hk with pipeline | function
  · exact .inl pipeline
  · have inner : s.parent.kind = .function := function
    obtain ⟨s', path', e', _, pair'⟩ := parent_of_text above (inner ▸ rfl) (inner ▸ nofun)
    exact .inr ⟨inner, s', path', e', (nestings_of_clause _ pair').2 inner⟩

/-! ## The cursor -/

/-- A token that starts before the cursor starts before the end of the text. -/
lemma childBefore?_min {k : Kind} (h : Reaches (ofRoot (parseTree text)) l)
    (hk : k.isToken = true) (found : (l.focus.childBefore? pos).map kind = some k) :
    (l.focus.childBefore? (min pos text.byteSize)).map kind = some k := by
  obtain ⟨c, first, rfl⟩ := Option.map_eq_some_iff.mp found
  obtain ⟨before, as, bs, split, after⟩ := List.find?_eq_some_iff_append.mp first
  have inside : c.start < text.byteSize := by
    have mem : c ∈ l.focus.children := by
      rw [← List.mem_reverse, split]
      exact List.mem_append_right _ (.head _)
    obtain ⟨i, hi⟩ := List.mem_iff_getElem?.mp mem
    have down : Reaches (ofRoot (parseTree text)) ⟨c, ⟨l.focus, i⟩ :: l.path⟩ :=
      h.tail (hasChild_iff.mpr ⟨i, hi, rfl⟩)
    obtain ⟨_, width⟩ := Bool.and_eq_true_iff.mp (isLeaf_of_isToken down.mem_preorder hk)
    have stops := ((orderly_of_text text).within down).2
    exact Nat.lt_of_lt_of_le (of_decide_eq_true width) stops
  refine Option.map_eq_some_iff.mpr ⟨c, List.find?_eq_some_iff_append.mpr ?_, rfl⟩
  refine ⟨?_, as, bs, split, ?_⟩
  · have := of_decide_eq_true before
    exact decide_eq_true (by omega)
  · intro a ha
    have := after a ha
    simp at this ⊢
    omega

/-- The kinds before the cursor end with that of the child before it. -/
lemma kindsUpTo_of_childBefore {n : Tree} {k : Kind} (hn : n.kind.isError = false)
    (found : (n.childBefore? pos).map kind = some k) : ∃ pre, n.kindsUpTo pos = pre ++ [k] := by
  obtain ⟨c, first, rfl⟩ := Option.map_eq_some_iff.mp found
  obtain ⟨before, as, bs, split, after⟩ := List.find?_eq_some_iff_append.mp first
  have kept : n.children.reverse.dropWhile (fun c => pos ≤ c.start) = c :: bs := by
    rw [split, List.dropWhile_append_of_pos, List.dropWhile_cons_of_neg]
    · have := of_decide_eq_true before
      simpa using this
    · simpa using after
  rw [kindsUpTo, hn, if_neg Bool.false_ne_true, kept]
  exact ⟨bs.reverse.map kind, by simp⟩

/-! ## The rules behind a kind -/

namespace Completion

variable {pre : List Kind} {k : Kind} {r : Rule} {rs : List Rule} {t root : Tree}

/-- The rule asks for no more than that kind where it asks for it. -/
def Rule.PlainBehind (k : Kind) (r : Rule) : Prop :=
  ∀ s ∈ r.suffixes, s.getLast? = some k ∨ s = [] → s = [k]

instance (k : Kind) (r : Rule) : Decidable (r.PlainBehind k) :=
  inferInstanceAs (Decidable (∀ s ∈ r.suffixes, s.getLast? = some k ∨ s = [] → s = [k]))

/-- A rule that asks for no more than a kind fires behind it if it lists it alone. -/
lemma Rule.PlainBehind.fires (h : r.PlainBehind k) :
    r.fires (pre ++ [k]) = r.suffixes.contains [k] := by
  rw [Bool.eq_iff_iff, Rule.fires, List.any_eq_true, List.contains_iff_mem]
  constructor
  · rintro ⟨s, hs, ends⟩
    rw [← h s hs ?_]
    · exact hs
    · rcases List.suffix_concat_iff.mp (List.isSuffixOf_iff_suffix.mp ends) with rfl | ⟨t, rfl, _⟩
      · exact .inr rfl
      · exact .inl List.getLast?_concat
  · intro mem
    exact ⟨[k], mem, List.isSuffixOf_iff_suffix.mpr (List.suffix_append pre [k])⟩

/-- What a node says behind a kind, if its rules ask for no more than that kind. -/
lemma consult_concat (entry : table t.kind = some (.rules rs)) (plain : ∀ r ∈ rs, r.PlainBehind k)
    (found : rs.find? (·.suffixes.contains [k]) = some r) :
    consult pos ⟨t, pre ++ [k]⟩ = .fires r := by
  have first : firstFiring? rs (pre ++ [k]) = some r := by
    rw [← found, firstFiring?]
    exact List.find?_congr fun r hr => (plain r hr).fires
  simp only [consult, entry, Entry.rulesFor?, first]

/-! ## The way up -/

/-- A rule that continues adds its candidates in front of what is collected further up. -/
lemma climb_continues {s : Step} {path : List Step} {cs : List Candidate}
    (h : consult pos ⟨t, pre⟩ = .fires r) (hr : r.continues = true)
    (above : climb root text pos (contextsAlong s.parent
      ((s.parent.children.take s.index).map kind ++ pre) path) = some cs) :
    climb root text pos (contextsAlong t pre (s :: path)) =
      some (r.candidates root text ++ cs) := by
  rw [contextsAlong, climb, h, above]
  exact if_pos hr

/-- What a clause offers behind a statement by itself. -/
def clauseGenerators (k : Kind) : List Generator :=
  if k = .clauseMatch then [freshVariables, .keywords .nestedPatterns] else [freshVariables]

/-- Behind a `;`, a clause offers what its rule says and lets those above it speak. -/
lemma consult_clause (hk : t.kind.isClause = true) :
    consult pos ⟨t, pre ++ [.semicolon]⟩ =
      .fires ⟨[[.semicolon]], clauseGenerators t.kind, true⟩ := by
  have entry : ∀ k : Kind, k.isClause = true → ∃ rs, table k = some (.rules rs) ∧
      (∀ r ∈ rs, r.PlainBehind .semicolon) ∧
      rs.find? (·.suffixes.contains [.semicolon]) =
        some ⟨[[.semicolon]], clauseGenerators k, true⟩ := by
    intro k hk
    cases k <;> first | exact ⟨_, rfl, by decide, rfl⟩ | cases hk
  obtain ⟨rs, found, plain, first⟩ := entry t.kind hk
  exact consult_concat found plain first

/-- Behind a `;`, a pipeline offers its stages and nothing else. -/
lemma climb_pipeline (hk : t.kind = .queryPipeline) (path : List Step) :
    climb root text pos (contextsAlong t (pre ++ [.semicolon]) path) =
      some ([Generator.keywords .pipelineStages].flatMap (·.candidates root text)) := by
  have entry : table t.kind = some (.rules pipelineRules) := by rw [hk]; rfl
  have plain : ∀ r ∈ pipelineRules, r.PlainBehind .semicolon := by decide
  exact climb_fires (consult_concat entry plain rfl) rfl

/-- A function leaves the offer to the schema query that it is in. -/
lemma climb_function (hk : t.kind = .function) {s : Step} (hs : s.parent.kind = .querySchema)
    (path : List Step) :
    climb root text pos (contextsAlong t (pre ++ [.semicolon]) (s :: path)) =
      some ([Generator.labels, .keywords .kinds].flatMap (·.candidates root text)) := by
  have silent : consult pos ⟨t, pre ++ [.semicolon]⟩ = .silent := by
    simp only [consult, hk, table]
  have entry : table s.parent.kind = some (.rules schemaQueryRules) := by rw [hs]; rfl
  have plain : ∀ r ∈ schemaQueryRules, r.PlainBehind .semicolon := by decide
  rw [climb_silent silent, ← List.append_assoc]
  exact climb_fires (consult_concat entry plain rfl) rfl

/-- What a clause collects behind a statement. -/
lemma climb_clause {l : Location} (pos : Nat) (reached : Reaches (ofRoot (parseTree text)) l)
    (hk : l.focus.kind.isClause = true) (kinds : l.focus.kindsUpTo pos = pre ++ [.semicolon]) :
    ∃ (p : Location) (gs : List Generator), l.parent? = some p ∧
      (p.focus.kind = .queryPipeline ∧ gs = [.keywords .pipelineStages] ∨
        p.focus.kind = .function ∧ gs = [.labels, .keywords .kinds]) ∧
      climb (parseTree text) text pos (contextsAt l pos) =
        some ((clauseGenerators l.focus.kind ++ gs).flatMap
          (·.candidates (parseTree text) text)) := by
  obtain ⟨s, path, e, above⟩ := path_of_clause reached hk
  have clause : consult pos ⟨l.focus, pre ++ [.semicolon]⟩ = _ := consult_clause hk
  have parent : l.parent? = some ⟨s.parent, path⟩ := by rw [parent?, e]
  rw [contextsAt, kinds, e]
  rcases above with pipeline | ⟨function, s', path', rfl, schema⟩
  · refine ⟨_, _, parent, .inl ⟨pipeline, rfl⟩, ?_⟩
    rw [List.flatMap_append]
    refine climb_continues clause rfl ?_
    rw [← List.append_assoc]
    exact climb_pipeline pipeline path
  · refine ⟨_, _, parent, .inr ⟨function, rfl⟩, ?_⟩
    rw [List.flatMap_append]
    refine climb_continues clause rfl ?_
    rw [← List.append_assoc]
    exact climb_function function schema path'

/-- What different generators collect is offered. -/
lemma complete_of_climb {boost : Int} {gs : List Generator} (boosted : Boosted boost gs)
    (nodup : gs.Nodup) (some : gs.flatMap (·.block text) ≠ [])
    (climbed : climb (parseTree text) text (min pos text.byteSize)
      (contextsAt ((parseTree text).resolve pos) (min pos text.byteSize)) =
        .some (gs.flatMap (·.candidates (parseTree text) text))) :
    complete (parseTree text) text pos =
      .some ⟨wordStart text (min pos text.byteSize), gs.flatMap (·.block text)⟩ := by
  have same : distinct gs = gs := distinctBy_of_nodup (nodup.map fun _ _ e => e)
  have kept : distinctBy (fun c : Candidate => (c.label, c.category))
      (gs.flatMap (·.block text)) = gs.flatMap (·.block text) := by
    have blocks := distinct_blocks boosted text
    rwa [same] at blocks
  simp only [Generator.candidates_parseTree] at climbed
  simp only [complete, resolve_min, climbed, kept, List.isEmpty_iff, if_neg some]

/-- Generators of other categories offer no candidate of a category. -/
lemma category_ne_of_mem {gs : List Generator} {category : Category}
    (h : ∀ g ∈ gs, g.category ≠ category) :
    ∀ c ∈ gs.flatMap (·.block text), c.category ≠ category := by
  intro c hc
  obtain ⟨g, hg, hc⟩ := List.mem_flatMap.mp hc
  rw [Generator.category_of_mem hc]
  exact h g hg

/-- What a clause offers behind a statement by itself, as candidates. -/
def clauseCandidates (text : Text) (k : Kind) : List Candidate :=
  variableCandidates text 10 ++
    if k = .clauseMatch then KeywordSet.nestedPatterns.candidates else []

/-- What a clause offers comes before what those above it do. -/
lemma flatMap_clauseGenerators (text : Text) (k : Kind) (gs : List Generator) :
    (clauseGenerators k ++ gs).flatMap (·.block text) =
      clauseCandidates text k ++ gs.flatMap (·.block text) := by
  rw [List.flatMap_append, clauseGenerators, clauseCandidates]
  split <;> simp [Generator.block, freshVariables]

/-- What is offered behind a statement comes from different generators. -/
lemma clauseGenerators_append {gs : List Generator}
    (h : gs = [.keywords .pipelineStages] ∨ gs = [.labels, .keywords .kinds]) (k : Kind) :
    Boosted 10 (clauseGenerators k ++ gs) ∧ (clauseGenerators k ++ gs).Nodup ∧
      (clauseGenerators k ++ gs).flatMap (·.block text) ≠ [] := by
  have first : ∀ front ∈ [[freshVariables, .keywords .nestedPatterns], [freshVariables]],
      (∀ g ∈ front ++ gs, ∀ b ∈ g.boost?, b = 10) ∧ (front ++ gs).Nodup := by
    rcases h with rfl | rfl <;> decide
  have front : clauseGenerators k ∈ [[freshVariables, .keywords .nestedPatterns],
      [freshVariables]] := by
    rw [clauseGenerators]
    split <;> decide
  refine ⟨(first _ front).1, (first _ front).2, ?_⟩
  rw [flatMap_clauseGenerators]
  rcases h with rfl | rfl <;> simp [Generator.block, KeywordSet.candidates, KeywordSet.words]

/--
Behind a statement of a clause, the variables of the document are offered, and the nested patterns
if the clause matches. In a pipeline the stages follow, and no root kind is offered. In a function
the labels and the root kinds follow instead, and no stage is offered.
-/
theorem candidates_behind_statement (text : Text) (pos : Nat)
    (clause : ((parseTree text).resolve pos).focus.kind.isClause = true)
    (behind : (((parseTree text).resolve pos).focus.childBefore? pos).map kind =
      some .semicolon) :
    ∃ r p, complete (parseTree text) text pos = some r ∧
      ((parseTree text).resolve pos).parent? = some p ∧
      (p.focus.kind = .queryPipeline ∧
        r.candidates = clauseCandidates text ((parseTree text).resolve pos).focus.kind ++
          KeywordSet.pipelineStages.candidates ∧
        (∀ c ∈ r.candidates, c.category ≠ .rootKind) ∨
      p.focus.kind = .function ∧
        r.candidates = clauseCandidates text ((parseTree text).resolve pos).focus.kind ++
          (labelCandidates text ++ KeywordSet.kinds.candidates) ∧
        ∀ c ∈ KeywordSet.pipelineStages.candidates, c ∉ r.candidates) := by
  have reached := reaches_resolve text pos
  have production := (Kind.isProduction_of_isClause clause).1
  obtain ⟨pre, kinds⟩ := kindsUpTo_of_childBefore (Kind.ne_error_of_isProduction production).1
    (childBefore?_min reached rfl behind)
  obtain ⟨p, gs, parent, place, climbed⟩ := climb_clause _ reached clause kinds
  generalize ((parseTree text).resolve pos).focus.kind = k at climbed ⊢
  have choice := place.imp And.right And.right
  obtain ⟨boosted, nodup, some⟩ := clauseGenerators_append choice k
  have completed := complete_of_climb boosted nodup some climbed
  refine ⟨_, p, completed, parent, ?_⟩
  rcases place with ⟨pipeline, rfl⟩ | ⟨function, rfl⟩
  · refine .inl ⟨pipeline, ?_, category_ne_of_mem ?_⟩
    · rw [flatMap_clauseGenerators, List.flatMap_singleton]
      rfl
    · rw [clauseGenerators]
      split <;> decide
  · refine .inr ⟨function, ?_, ?_⟩
    · rw [flatMap_clauseGenerators, List.flatMap_cons, List.flatMap_singleton]
      rfl
    · intro c hc offered
      -- all stages are keywords, and neither the clause nor the function offers any of these
      have other : ∀ g ∈ clauseGenerators k ++ [Generator.labels, .keywords .kinds],
          g.category ≠ .keyword := by
        rw [clauseGenerators]
        split <;> decide
      have stage : c.category = .keyword :=
        Generator.category_of_mem (show c ∈ (Generator.keywords .pipelineStages).block text from hc)
      exact category_ne_of_mem other c offered stage

/-- Behind a statement of a pipeline: its variable, then the stages. -/
theorem candidates_behind_insertion :
    ∃ r p, complete (parseTree "insert $x isa person; ".toList) "insert $x isa person; ".toList 22 =
        some r ∧
      ((parseTree "insert $x isa person; ".toList).resolve 22).parent? = some p ∧
      p.focus.kind = .queryPipeline ∧
      r.candidates = clauseCandidates "insert $x isa person; ".toList .clauseInsert ++
        KeywordSet.pipelineStages.candidates := by
  have clause : ((parseTree "insert $x isa person; ".toList).resolve 22).focus.kind =
      .clauseInsert := by decide +kernel
  have pipeline : ((parseTree "insert $x isa person; ".toList).resolve 22).parent?.map
      (·.focus.kind) = some .queryPipeline := by decide +kernel
  obtain ⟨r, p, h, parent, place⟩ := candidates_behind_statement "insert $x isa person; ".toList 22
    (clause ▸ rfl) (by decide +kernel)
  rw [parent] at pipeline
  rw [clause] at place
  rcases place with ⟨here, offered, _⟩ | ⟨function, _⟩
  · exact ⟨r, p, h, parent, here, offered⟩
  · cases (Option.some.inj pipeline).symm.trans function

/-- Not every clause offers the next stage behind a statement: one in a function does not. -/
theorem stages_not_behind_statement :
    ¬ ∀ (text : Text) (pos : Nat),
      ((parseTree text).resolve pos).focus.kind.isClause = true →
      (((parseTree text).resolve pos).focus.childBefore? pos).map kind = some .semicolon →
      ∃ r, complete (parseTree text) text pos = some r ∧
        KeywordSet.pipelineStages.candidates ⊆ r.candidates ∧
        ∀ c ∈ r.candidates, c.category ≠ .rootKind := by
  intro all
  obtain ⟨r, h, _, none⟩ := all "define fun f() -> person: match $x isa person; ".toList 47
    (by decide +kernel) (by decide +kernel)
  have some : (complete (parseTree "define fun f() -> person: match $x isa person; ".toList)
      "define fun f() -> person: match $x isa person; ".toList 47).map
        (·.candidates.any (·.category = .rootKind)) = some true := by decide +kernel
  rw [h] at some
  obtain ⟨c, hc, kind⟩ := List.any_eq_true.mp (Option.some.inj some)
  exact none c hc (of_decide_eq_true kind)

end Completion

end TypeqlAssist

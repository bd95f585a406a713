import Mathlib.Tactic.FinCases
import TypeqlAssist.Proofs.Document.Structure
import TypeqlAssist.Proofs.Grammar.Completeness

/-!
# Recognition

A text has no error exactly if the kinds of its tokens make up a document of the grammar. The two
differ in where a query ends: pipelines that follow each other without an end are queries of their
own to the grammar, but are read as one. `Grouped` puts the stages of such pipelines together.
-/

namespace TypeqlAssist

namespace Grammar

/-! ## Queries as they are read -/

/-- Queries, where a pipeline without an end is not followed by another stage. -/
inductive Grouped (n : Nat) : List Kind → Prop where
  | none :
    Grouped n []
  | ended {u v} :
    Derives Phrase.body n
      (.seq (.either .schema (.plus .stage)) (.seq (.token .kwEnd) (.token .semicolon))) u →
    Grouped n v →
    Grouped n (u ++ v)
  | schema {u v} :
    Derives Phrase.body n .schema u →
    Grouped n v →
    Grouped n (u ++ v)
  | pipeline {u v} :
    Derives Phrase.body n (.plus .stage) u →
    nextIs Kind.isStageKeyword (.ofKinds v) = false →
    Grouped n v →
    Grouped n (u ++ v)

variable {n : Nat} {a : Phrase} {inner : Symbol → List Kind → Option (List Kind)}
  {u v w : List Kind}

/-- Stages in front of a pipeline belong to it. -/
lemma Derives.plus_append (hu : Derives Phrase.body n (.plus a) u)
    (hv : Derives Phrase.body n (.plus a) v) : Derives Phrase.body n (.plus a) (u ++ v) := by
  obtain ⟨x, y, rfl, hx, hy⟩ := derives_seq.mp hu
  rw [List.append_assoc]
  exact .seq hx (hy.star_append (derives_star_of_plus hv))

/-- What starts with the keyword of a schema does not start with that of a stage. -/
lemma schema_not_stage (hu : Derives Phrase.body n .schema u) :
    nextIs Kind.isStageKeyword (.ofKinds (u ++ v)) = false := by
  obtain ⟨k, hk, ms, rfl⟩ := starts_schema u hu
  fin_cases hk <;> rfl

/-- A pipeline may come in front of queries: stages that come next are put to it. -/
lemma Grouped.stages (hu : Derives Phrase.body n (.plus .stage) u) (hv : Grouped n v) :
    Grouped n (u ++ v) := by
  cases next : nextIs Kind.isStageKeyword (.ofKinds v) with
  | false => exact .pipeline hu next hv
  | true =>
    -- a stage comes next, so the next query is a pipeline and its stages are put to these
    cases hv with
    | none => cases next
    | ended hx hy =>
      obtain ⟨x, e, rfl, hx, he⟩ := derives_seq.mp hx
      rcases derives_either.mp hx with hx | hx
      · rw [List.append_assoc, schema_not_stage hx] at next
        cases next
      · rw [← List.append_assoc, ← List.append_assoc]
        exact .ended (.seq (.right (hu.plus_append hx)) he) hy
    | schema hx hy =>
      rw [schema_not_stage hx] at next
      cases next
    | pipeline hx other hy =>
      rw [← List.append_assoc]
      exact .pipeline (hu.plus_append hx) other hy

/-- The queries of a document can be read. -/
lemma grouped_of_source (h : Derives Phrase.body n .source w) : Grouped n w := by
  refine h.star_induction .none ?_
  intro q v hq _ ih
  obtain ⟨u, e, rfl, hu, he⟩ := derives_seq.mp hq
  rcases derives_maybe.mp he with he | rfl
  · exact .ended (.seq hu he) ih
  · rw [List.append_nil]
    rcases derives_either.mp hu with hu | hu
    · exact .schema hu ih
    · exact .stages hu ih

/-! ## Reading queries -/

/-- The kinds that queries start with. -/
def queryKeywords : List Kind :=
  [.kwDefine, .kwRedefine, .kwUndefine, .kwMatch, .kwInsert, .kwDelete, .kwUpdate, .kwPut,
    .kwSelect, .kwSort, .kwLimit, .kwOffset, .kwReduce]

/-- A schema query starts as queries do. -/
lemma schema_starts_query : Starts Phrase.body n .schema queryKeywords :=
  starts_schema.subset (by simp [queryKeywords])

/-- A pipeline starts as queries do. -/
lemma pipeline_starts_query : Starts Phrase.body n (.plus .stage) queryKeywords :=
  .seq (starts_stage.subset (by simp [queryKeywords]))

/-- No other kind comes in front of a query. -/
lemma query_next (hs : Starts Phrase.body n a queryKeywords) (hu : Derives Phrase.body n a u) :
    nextIs (fun k => k.isSchemaKeyword || k.isStageKeyword) (.ofKinds (u ++ v)) = true := by
  obtain ⟨k, hk, ms, rfl⟩ := hs u hu
  have keyword : ∀ k ∈ queryKeywords, (k.isSchemaKeyword || k.isStageKeyword) = true := by decide
  exact keyword k hk

/-- Behind a query is the end of the document or another query. -/
lemma Grouped.behind (h : Grouped n w) :
    nextIs (fun k => !(k.isSchemaKeyword || k.isStageKeyword)) (.ofKinds w) = false := by
  have other {a : Phrase} {u v : List Kind} (hs : Starts Phrase.body n a queryKeywords)
      (hu : Derives Phrase.body n a u) :
      nextIs (fun k => !(k.isSchemaKeyword || k.isStageKeyword)) (.ofKinds (u ++ v)) = false := by
    obtain ⟨k, e, hk⟩ := nextIs_iff.mp (query_next (v := v) hs hu)
    rw [nextIs, e, Option.any_some, hk]
    rfl
  cases h with
  | none => rfl
  | ended hu => exact other (.seq (.either schema_starts_query pipeline_starts_query)) hu
  | schema hu => exact other schema_starts_query hu
  | pipeline hu => exact other pipeline_starts_query hu

/-- One turn in reading queries. -/
def queryTurn : Rule :=
  .branch (nextIs fun k => k.isSchemaKeyword || k.isStageKeyword) query .recover

/-- A turn reads a query, and the others what comes behind it. -/
lemma query_turn (hs : Starts Phrase.body n a queryKeywords) (hu : Derives Phrase.body n a u)
    (read : query.accept inner (u ++ v) = some v)
    (ih : ∀ fuel, v.length ≤ fuel → acceptWhile (nextIs fun _ => true)
      (fun ks => queryTurn.accept inner ks) fuel v = some []) (fuel : Nat)
    (enough : (u ++ v).length ≤ fuel) :
    acceptWhile (nextIs fun _ => true) (fun ks => queryTurn.accept inner ks) fuel (u ++ v) =
      some [] := by
  have some := hu.length_pos hs.not_nil
  have next := query_next (v := v) hs hu
  obtain ⟨k, e, _⟩ := nextIs_iff.mp next
  rw [List.length_append] at enough
  obtain ⟨fuel, rfl⟩ := Nat.exists_eq_add_of_le' (by omega : 1 ≤ fuel)
  rw [acceptWhile_turn (nextIs_iff.mpr ⟨k, e, rfl⟩) ((if_pos next).trans read)]
  exact ih fuel (by omega)

/-- As many turns as there are kinds read all queries. -/
lemma Grouped.accept (g : Complete n inner) (h : Grouped n w) :
    ∀ fuel, w.length ≤ fuel →
      acceptWhile (nextIs fun _ => true) (fun ks => queryTurn.accept inner ks) fuel w =
        some [] := by
  induction h with
  | none => exact fun fuel _ => acceptWhile_stop rfl fuel
  | ended hu _ ih =>
    refine query_turn (.seq (.either schema_starts_query pipeline_starts_query)) hu ?_ ih
    exact query_covers_end g _ _ hu trivial
  | schema hu hv ih =>
    refine query_turn schema_starts_query hu (query_covers_schema g _ _ hu ⟨?_, ?_⟩) ih
    · refine nextIs_eq_false hv.behind fun k => ?_
      cases k <;> decide
    · exact next_eq_false hv.behind rfl
  | pipeline hu other hv ih =>
    refine query_turn pipeline_starts_query hu (query_covers_pipeline g _ _ hu ⟨⟨other, ?_⟩, ?_⟩) ih
    · refine nextIs_eq_false hv.behind fun k => ?_
      cases k <;> decide
    · exact next_eq_false hv.behind rfl

/-- The kinds of a document of the grammar are accepted. -/
theorem acceptQueries_complete {ks : List Kind}
    (h : Derives Phrase.body maxNesting .source ks) : acceptQueries ks = some [] :=
  (grouped_of_source h).accept (acceptSymbol_complete maxNesting) ks.length (Nat.le_refl _)

end Grammar

open Grammar

/-- A text has no error exactly if the kinds of its tokens make up a document of the grammar. -/
theorem errors_eq_nil_iff (text : Text) :
    (parse text).errors = [] ↔
      Derives Phrase.body maxNesting Phrase.source ((tokenize text).map (·.kind)) := by
  rw [errors_of_text, List.map_eq_nil_iff, readDocument_faults_eq_nil_iff]
  exact ⟨acceptQueries_sound, acceptQueries_complete⟩

end TypeqlAssist

import TypeqlAssist.Proofs.Document.Stages

/-!
# Productions in productions

Which production may stand in which can be read off the rules of the grammar (`Rule.nestings`),
since a rule makes nodes of its own kinds around what its parts read. So the parent of a production
in a document is one of few, whatever the text (`parent_of_text`).
-/

namespace TypeqlAssist

namespace Grammar

open TypeqlAssist.Tree

/-! ## Rules -/

/-- The kinds of the productions that a rule makes side by side; `inner` tells those of symbols. -/
def Rule.outer (inner : Symbol → List Kind) : Rule → List Kind
  | skip | take | missing _ | stray | recover => []
  | nested s => inner s
  | seq p q | branch _ p q => p.outer inner ++ q.outer inner
  | node k _ => [k]
  | many _ p => p.outer inner
  | joined p _ k _ => k :: p.outer inner

/-- The kinds of the productions that a rule makes, each with those that it makes right below. -/
def Rule.nestings (inner : Symbol → List Kind) : Rule → List (Kind × Kind)
  | skip | take | missing _ | stray | recover | nested _ => []
  | seq p q | branch _ p q => p.nestings inner ++ q.nestings inner
  | node k p => (p.outer inner).map (k, ·) ++ p.nestings inner
  | many _ p => p.nestings inner
  | joined p _ k q =>
    (p.outer inner ++ q.outer inner).map (k, ·) ++ (p.nestings inner ++ q.nestings inner)

/--
Trees with children are errors or of the given kinds, and below them, each with its parent, errors
or one of the given pairs.
-/
structure Nested (ks : List Kind) (pairs : List (Kind × Kind)) (ts : List Tree) : Prop where
  outer : ∀ t ∈ ts, t.children ≠ [] → t.kind = .error ∨ t.kind ∈ ks
  inside : AllNodes (fun n => ∀ c ∈ n.children, c.children ≠ [] →
    c.kind = .error ∨ (n.kind, c.kind) ∈ pairs) ts

variable {ks ks' : List Kind} {pairs : List (Kind × Kind)} {ts us : List Tree} {eof : Nat}

/-- Trees nested among some kinds are nested among more. -/
lemma Nested.mono (h : Nested ks pairs ts) (sub : ks ⊆ ks') : Nested ks' pairs ts :=
  ⟨fun t ht some => (h.outer t ht some).imp_right (sub ·), h.inside⟩

/-- No trees are nested well. -/
lemma Nested.nil : Nested ks pairs [] :=
  ⟨nofun, .nil⟩

/-- Trees side by side are nested well if those on either side are. -/
lemma Nested.append (h : Nested ks pairs ts) (h' : Nested ks pairs us) :
    Nested ks pairs (ts ++ us) :=
  ⟨List.forall_mem_append.mpr ⟨h.outer, h'.outer⟩, h.inside.append h'.inside⟩

/-- Tokens are nested well, as nothing is below them. -/
lemma Nested.leaves (ts : List Token) : Nested ks pairs (ts.map leaf) :=
  ⟨List.forall_mem_map.mpr fun _ _ some => absurd rfl some, .leaves ts fun _ => nofun⟩

/-- A production over trees is nested well if it is paired with their kinds. -/
lemma Nested.enclosed {k : Kind} {offset : Nat} {rest : List Token} (h : Nested ks pairs ts)
    (sub : ks.map (k, ·) ⊆ pairs) : Nested [k] pairs [enclosed eof k offset ts rest] := by
  refine ⟨fun t ht _ => ?_, h.inside.enclosed fun _ _ c hc some => ?_⟩
  · cases List.mem_singleton.mp ht
    exact .inr (.head _)
  · exact (h.outer c hc some).imp_right fun mem => sub (List.mem_map_of_mem mem)

/-- What is wrapped in an error node has no children. -/
lemma Nested.wrapped {cause : Cause} {n : Nat} {ts : List Token} :
    Nested ks pairs (wrapped eof cause n ts).nodes := by
  have plain : Nested [] pairs ((ts.take n).map leaf) := .leaves _
  have error : Nested [.error] pairs (Grammar.wrapped eof cause n ts).nodes :=
    plain.enclosed (List.nil_subset _)
  refine ⟨fun t ht some => ?_, error.inside⟩
  exact .inl ((error.outer t ht some).elim id List.mem_singleton.mp)

/-- A rule makes the productions that it tells, in each other as it tells. -/
theorem Rule.run_nested {inner : Symbol → List Kind} {read : Symbol → List Token → Parsed}
    (hi : ∀ s ts, Nested (inner s) pairs (read s ts).nodes) {r : Rule}
    (hr : r.nestings inner ⊆ pairs) (ts : List Token) :
    Nested (r.outer inner) pairs (r.run eof read ts).nodes := by
  induction r generalizing ts with
  | skip => exact .nil
  | take =>
    cases ts with
    | nil => exact .nil
    | cons t ts => exact .leaves [t]
  | missing wanted =>
    refine ⟨fun t ht some => ?_, .node .nil nofun⟩
    cases List.mem_singleton.mp ht
    exact absurd rfl some
  | stray =>
    cases ts with
    | nil => exact .nil
    | cons t ts => exact .wrapped
  | recover =>
    cases ts with
    | nil => exact .nil
    | cons t ts => exact .wrapped
  | nested s => exact hi s ts
  | seq p q ihp ihq =>
    obtain ⟨hp, hq⟩ := List.append_subset.mp hr
    exact ((ihp hp ts).mono (List.subset_append_left _ _)).append
      ((ihq hq _).mono (List.subset_append_right _ _))
  | node k p ih =>
    obtain ⟨hk, hp⟩ := List.append_subset.mp hr
    exact (ih hp ts).enclosed hk
  | branch test p q ihp ihq =>
    obtain ⟨hp, hq⟩ := List.append_subset.mp hr
    rw [run]
    split
    · exact (ihp hp ts).mono (List.subset_append_left _ _)
    · exact (ihq hq ts).mono (List.subset_append_right _ _)
  | many test p ih => exact repeatWhile_nodes .nil (fun _ _ => .append) (fun ts _ => ih hr ts) _ ts
  | joined p test k q ihp ihq =>
    obtain ⟨hk, hpq⟩ := List.append_subset.mp hr
    obtain ⟨hp, hq⟩ := List.append_subset.mp hpq
    simp only [run]
    split
    · refine Nested.mono (.enclosed ?_ hk) (List.cons_subset_cons k (List.nil_subset _))
      exact ((ihp hp ts).mono (List.subset_append_left _ _)).append
        ((ihq hq _).mono (List.subset_append_right _ _))
    · exact (ihp hp ts).mono (List.subset_cons_self _ _)

/-! ## The grammar -/

/-- The kinds of the productions that symbols are read as. -/
def symbolKinds : Symbol → List Kind
  | .block _ =>
    [.patternNegation, .patternTry, .patternDisjunction, .patternConjunction, .statement]
  | .expression => [.expression]

/-- The productions of the grammar, each with those that may stand right below. -/
def nestings : List (Kind × Kind) :=
  queries.nestings symbolKinds ++
    [Symbol.block .reading, .block .writing, .expression].flatMap fun s =>
      (definitionOf s).nestings symbolKinds

/-- The definition of a symbol makes productions of its kinds. -/
lemma outer_definitionOf (s : Symbol) : (definitionOf s).outer symbolKinds ⊆ symbolKinds s := by
  rcases s with ⟨⟨⟩⟩ | ⟨⟩ <;> decide +kernel

/-- The definition of a symbol nests productions as the table says. -/
lemma nestings_definitionOf (s : Symbol) : (definitionOf s).nestings symbolKinds ⊆ nestings := by
  intro pair h
  refine List.mem_append_right _ (List.mem_flatMap.mpr ⟨s, ?_, h⟩)
  rcases s with ⟨⟨⟩⟩ | ⟨⟩ <;> decide

/-- What is read for a symbol is of its kinds, and nested as the table says. -/
lemma runSymbol_nested (levels : Nat) (s : Symbol) (ts : List Token) :
    Nested (symbolKinds s) nestings (runSymbol definitionOf eof levels s ts).nodes := by
  induction levels generalizing s ts with
  | zero => exact .wrapped
  | succ levels ih =>
    exact (Rule.run_nested ih (nestings_definitionOf s) ts).mono (outer_definitionOf s)

/-- The productions of a document are queries, and in them those that the grammar tells. -/
theorem readDocument_nested (eof : Nat) (ts : List Token) :
    Nested [.query] nestings (readDocument eof ts).nodes :=
  Rule.run_nested (fun s ts => runSymbol_nested maxNesting s ts) (List.subset_append_left _ _) ts

end Grammar

/-! ## Documents -/

open TypeqlAssist.Tree Grammar Location

variable {text : Text} {l : Location}

/-- Every production below the root has children. -/
lemma children_of_isProduction {n : Tree}
    (h : n ∈ preorderAll (readDocument text.byteSize (tokenize text)).nodes)
    (hk : n.kind.isProduction = true) : n.children ≠ [] := by
  intro none
  have token (t : Token) (width : t.start < t.stop) (e : n = leaf t) : False := by
    subst e
    exact absurd (hk.symm.trans (tokenize_isProduction (leaf_of_text width h))) nofun
  rcases placed_of_text h with placed | ⟨t, width, e⟩
  · cases placed with
    | token _ width => exact token _ width rfl
    | fault => cases hk
    | production _ some => exact some none
  · exact token t width e

/-- A node with children that is no error stands in one that the grammar puts it in. -/
lemma nestings_of_text {c : Location} (h : Reaches (ofRoot (parseTree text)) l) (step : HasChild l c)
    (some : c.focus.children ≠ []) (fine : c.focus.kind ≠ .error) :
    (l.focus.kind, c.focus.kind) ∈ (.source, .query) :: nestings := by
  have nested := readDocument_nested text.byteSize (tokenize text)
  rcases standing_of_text h with rfl | ⟨_, mem⟩
  · have outer := (nested.outer _ step.mem some).resolve_left fine
    rw [List.mem_singleton.mp outer]
    exact .head _
  · exact .tail _ ((nested.inside _ mem _ step.mem some).resolve_left fine)

/-- A production stands in the root or in one that the grammar puts it in. -/
theorem parent_of_text (h : Reaches (ofRoot (parseTree text)) l)
    (hk : l.focus.kind.isProduction = true) (below : l.focus.kind ≠ .source) :
    ∃ s path, l.path = s :: path ∧ Reaches (ofRoot (parseTree text)) ⟨s.parent, path⟩ ∧
      (s.parent.kind, l.focus.kind) ∈ (.source, .query) :: nestings := by
  rcases Relation.ReflTransGen.cases_tail h with rfl | ⟨m, hm, step⟩
  · exact absurd rfl below
  obtain ⟨i, hi, path⟩ := hasChild_iff.mp step
  refine ⟨_, _, path, hm, nestings_of_text hm step ?_ ?_⟩
  · rcases standing_of_text h with rfl | ⟨_, mem⟩
    · cases path
    · exact children_of_isProduction mem hk
  · exact fun e => by simp [e, Kind.isProduction] at hk

/-- No error is listed as a parent. -/
lemma ne_error_of_nestings : ∀ pair ∈ (.source, .query) :: nestings, pair.1 ≠ .error := by
  decide +kernel

/-- Where the productions of some kinds only hold such productions, no other one stands in them. -/
lemma ancestors_of_text {ks : List Kind}
    (closed : ∀ pair ∈ (.source, .query) :: nestings, pair.1 ∈ ks → pair.2 ∈ ks)
    (h : Reaches (ofRoot (parseTree text)) l) (some : l.focus.children ≠ [])
    (fine : l.focus.kind ≠ .error) (own : l.focus.kind ∉ ks) : ∀ n ∈ l.ancestors, n.kind ∉ ks := by
  induction h with
  | refl => exact nofun
  | @tail m c hm step ih =>
    have pair := nestings_of_text hm step some fine
    have outside : m.focus.kind ∉ ks := fun inside => own (closed _ pair inside)
    rw [step.ancestors]
    exact List.forall_mem_cons.mpr ⟨outside,
      ih (List.ne_nil_of_mem step.mem) (ne_error_of_nestings _ pair) outside⟩

end TypeqlAssist

import TypeqlAssist.Proofs.Document.Cursor
import TypeqlAssist.Proofs.Token.Lexeme

/-!
# Stages and schema queries

Recovery never takes the keyword of a stage or of a schema query away: wherever such a keyword
stands in a text, however malformed, it is the first child of the production that it opens, and no
error node is above it. Conversely each such production starts with its keyword.
-/

namespace TypeqlAssist

open TypeqlAssist.Tree Grammar Location

/-! ## Keywords and productions -/

/-- The kinds that open a production are the keywords of stages and schema queries. -/
lemma Kind.opened?_isSome (k : Kind) :
    k.opened?.isSome = (k.isStageKeyword || k.isSchemaKeyword) := by
  cases k <;> rfl

/-- What a keyword opens is a production. -/
lemma Kind.isProduction_of_isOpened {k : Kind} : k.isOpened = true → k.isProduction = true := by
  cases k <;> decide

/-- What opens a production is a token, and is opened by nothing. -/
lemma Kind.isToken_of_opened? {k k' : Kind} (h : k.opened? = some k') :
    k.isToken = true ∧ k.isOpened = false := by
  cases k <;> first | exact ⟨rfl, rfl⟩ | cases h

/-! ## How nodes stand in a tree -/

/--
A location below the root stands well: its node is seated outside of error nodes, or it is the
keyword of the node just above it, or a token in an error node that opens nothing.
-/
inductive Standing : Location → Prop where
  | seated {l : Location} :
    Seated l.focus →
    (∀ a ∈ l.ancestors, a.kind ≠ .error) →
    Standing l
  | keyword {t : Token} {parent : Tree} {path : List Step} :
    t.kind.opened? = some parent.kind →
    (∀ a ∈ (⟨parent, path⟩ : Location).ancestors, a.kind ≠ .error) →
    parent.kind ≠ .error →
    Standing ⟨leaf t, ⟨parent, 0⟩ :: path⟩
  | wrapped {t : Token} {path : List Step} :
    t.kind.opened? = none →
    t.start < t.stop →
    Standing ⟨leaf t, path⟩

variable {l m c : Location} {text : Text}

/-- A token has no children. -/
lemma not_hasChild_leaf {t : Token} {path : List Step} : ¬ HasChild ⟨leaf t, path⟩ c :=
  fun h => nomatch h.mem

/-- What holds of a node holds of its children. -/
lemma Standing.child (h : Standing l) (hc : HasChild l c) : Standing c := by
  cases h with
  | keyword => exact absurd hc not_hasChild_leaf
  | wrapped => exact absurd hc not_hasChild_leaf
  | seated seated clear =>
    obtain ⟨focus, path⟩ := l
    cases seated with
    | token => exact absurd hc not_hasChild_leaf
    | fault plain =>
      obtain ⟨u, path⟩ := c
      obtain ⟨t, ht, rfl⟩ := List.mem_map.mp hc.mem
      exact .wrapped (plain t ht).2 (plain t ht).1
    | production hk _ hcs =>
      refine .seated (hcs _ hc.mem) ?_
      rw [hc.ancestors]
      exact List.forall_mem_cons.mpr ⟨hk.1, clear⟩
    | @opened k a b cs t ho width hcs =>
      have hk := (ne_error_of_opened ho).2
      obtain ⟨u, path'⟩ := c
      obtain ⟨i, hi, e⟩ := hasChild_iff.mp hc
      cases e
      cases i with
      | zero =>
        cases hi
        exact .keyword ho clear hk
      | succ i =>
        refine .seated (hcs u (List.mem_of_getElem? hi)) ?_
        exact List.forall_mem_cons.mpr ⟨hk, clear⟩

/-- What is below a location that stands well does so, too. -/
lemma Standing.reaches (h : Standing l) (hm : Reaches l m) : Standing m := by
  induction hm with
  | refl => exact h
  | tail _ step ih => exact ih.child step

/-- Every location in a document is the root, or stands well among the nodes below the root. -/
lemma standing_of_text (h : Reaches (ofRoot (parseTree text)) l) :
    l = ofRoot (parseTree text) ∨
      Standing l ∧ l.focus ∈ preorderAll (readDocument text.byteSize (tokenize text)).nodes := by
  rcases Relation.ReflTransGen.cases_head h with rfl | ⟨c, hc, down⟩
  · exact .inl rfl
  · have seated := readDocument_seated text.byteSize (tokenize_spaced text).width c.focus hc.mem
    have standing : Standing c := by
      refine .seated seated ?_
      rw [hc.ancestors]
      exact List.forall_mem_cons.mpr ⟨nofun, nofun⟩
    refine .inr ⟨standing.reaches down, ?_⟩
    exact mem_preorderAll_of_mem hc.mem (Reaches.mem_preorder down)

/-- A leaf of a document is a token of the text, so it has no kind of a production. -/
lemma leaf_of_text {t : Token} (width : t.start < t.stop)
    (h : leaf t ∈ preorderAll (readDocument text.byteSize (tokenize text)).nodes) :
    t ∈ tokenize text := by
  rw [← tokensOf_text]
  refine List.mem_map.mpr ⟨leaf t, List.mem_filter.mpr ⟨h, ?_⟩, rfl⟩
  exact decide_eq_true width

/-- No token is of a kind that a keyword opens. -/
lemma leaf_not_isOpened {t : Token} (width : t.start < t.stop)
    (h : leaf t ∈ preorderAll (readDocument text.byteSize (tokenize text)).nodes) :
    t.kind.isOpened = false := by
  have other := tokenize_isProduction (leaf_of_text width h)
  by_contra opened
  rw [Kind.isProduction_of_isOpened (Bool.not_eq_false _ ▸ opened)] at other
  cases other

/-- No production stands in an error node. -/
lemma clear_of_isProduction (h : Reaches (ofRoot (parseTree text)) l)
    (hk : l.focus.kind.isProduction = true) : ∀ a ∈ l.ancestors, a.kind ≠ .error := by
  rcases standing_of_text h with rfl | ⟨standing, mem⟩
  · exact nofun
  · cases standing with
    | seated _ clear => exact clear
    | wrapped _ width =>
      exact absurd (hk.symm.trans (tokenize_isProduction (leaf_of_text width mem))) nofun
    | @keyword t _ _ ho =>
      have token : t.kind.isToken = true := (Kind.isToken_of_opened? ho).1
      rw [Kind.isToken, show t.kind.isProduction = true from hk] at token
      cases token

/-- Each token of a text has a location in its tree. -/
lemma exists_location {t : Token} (h : t ∈ tokenize text) :
    ∃ l, Reaches (ofRoot (parseTree text)) l ∧ l.focus = leaf t := by
  rw [← tokensOf_text] at h
  obtain ⟨⟨k, a, b, cs⟩, hn, rfl⟩ := List.mem_map.mp h
  obtain ⟨hn, hl⟩ := List.mem_filter.mp hn
  obtain ⟨empty, _⟩ := Bool.and_eq_true_iff.mp hl
  cases List.isEmpty_iff.mp empty
  exact exists_reaches [] (parseTree text) (.tail _ hn)

/-- A keyword is the first child of the production that it opens, outside of error nodes. -/
lemma keyword_of_text {k : Kind} (h : Reaches (ofRoot (parseTree text)) l)
    (hk : l.focus.kind.opened? = some k) :
    l.isFirst = true ∧ (∃ p, l.parent? = some p ∧ p.focus.kind = k) ∧
      ∀ a ∈ l.ancestors, a.kind ≠ .error := by
  have empty := children_of_isToken (Reaches.mem_preorder h) (Kind.isToken_of_opened? hk).1
  rcases standing_of_text h with rfl | ⟨standing, _⟩
  · cases hk
  · cases standing with
    | wrapped other => exact absurd (hk.symm.trans other) nofun
    | keyword ho clear ne =>
      cases hk.symm.trans ho
      exact ⟨rfl, ⟨_, rfl, rfl⟩, List.forall_mem_cons.mpr ⟨ne, clear⟩⟩
    | seated seated _ =>
      obtain ⟨focus, path⟩ := l
      cases seated with
      | token plain =>
        have other := (Kind.isPlain_iff.mp plain).2
        exact absurd (hk.symm.trans other) nofun
      | fault => cases hk
      | production _ some => exact absurd empty some
      | opened => cases empty

/-- A production with a keyword of its own starts with it. -/
lemma opened_of_text (h : Reaches (ofRoot (parseTree text)) l)
    (hk : l.focus.kind.isOpened = true) :
    ∃ c, l.first? = some c ∧ c.focus.kind.opened? = some l.focus.kind := by
  rcases standing_of_text h with rfl | ⟨standing, mem⟩
  · cases hk
  · cases standing with
    | wrapped _ width => exact absurd (hk.symm.trans (leaf_not_isOpened width mem)) nofun
    | keyword ho => exact absurd (hk.symm.trans (Kind.isToken_of_opened? ho).2) nofun
    | seated seated _ =>
      obtain ⟨focus, path⟩ := l
      cases seated with
      | token _ width => exact absurd (hk.symm.trans (leaf_not_isOpened width mem)) nofun
      | fault => cases hk
      | production other => exact absurd (hk.symm.trans other.2) nofun
      | opened ho => exact ⟨_, rfl, ho⟩

/--
Every keyword of a stage or a schema query is the first child of the production that it opens,
outside of error nodes, and every such production starts with a keyword that opens it.
-/
theorem keywords_open_productions (text : Text) :
    (∀ t ∈ tokenize text, (t.kind.isStageKeyword || t.kind.isSchemaKeyword) = true →
      ∃ l, Reaches (ofRoot (parseTree text)) l ∧ l.focus = leaf t) ∧
    (∀ l : Location, Reaches (ofRoot (parseTree text)) l →
      (l.focus.kind.isStageKeyword || l.focus.kind.isSchemaKeyword) = true →
      l.isFirst = true ∧ (∃ p, l.parent? = some p ∧ l.focus.kind.opened? = some p.focus.kind) ∧
        ∀ a ∈ l.ancestors, a.kind ≠ .error) ∧
    (∀ l : Location, Reaches (ofRoot (parseTree text)) l → l.focus.kind.isOpened = true →
      ∃ c, l.first? = some c ∧ c.focus.kind.opened? = some l.focus.kind) := by
  refine ⟨fun t ht _ => exists_location ht, ?_, fun l hl hk => opened_of_text hl hk⟩
  intro l hl hk
  rw [← Kind.opened?_isSome] at hk
  obtain ⟨k, hk⟩ := Option.isSome_iff_exists.mp hk
  obtain ⟨first, ⟨p, hp, e⟩, clear⟩ := keyword_of_text hl hk
  exact ⟨first, ⟨p, hp, e ▸ hk⟩, clear⟩

end TypeqlAssist

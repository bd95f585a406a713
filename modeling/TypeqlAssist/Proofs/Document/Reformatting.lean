import TypeqlAssist.Proofs.Completion.Words
import TypeqlAssist.Proofs.Grammar.Likeness
import TypeqlAssist.Schema.Extract

/-!
# Reformatted documents

Blanks, comments and offsets do not matter: texts whose tokens have the same kinds have trees of
the same shape and the same errors, but for the words that a message quotes. If the tokens also
spell the same words, the texts declare the same schema (`parse_reformatted`).
-/

namespace TypeqlAssist

open TypeqlAssist.Tree Grammar

variable {a b : Text} {R : Token → Token → Prop}

/-- Documents of corresponding tokens have trees that are alike. -/
lemma parseTree_alike (hR : ∀ t u, R t u → t.kind = u.kind)
    (h : List.Forall₂ R (tokenize a) (tokenize b)) : Tree.Alike R [parseTree a] [parseTree b] :=
  .node rfl (readDocument_alike hR h).nodes .nil

/-! ## Messages -/

/-- The message of an error quotes what it concerns as input that no rule takes. -/
def SyntaxError.Quotes (text : Text) (e : SyntaxError) : Prop :=
  e.message = "unexpected input '" ++ String.ofList (text.slice e.start e.stop) ++ "'"

/-- Faults of one cause have one message, unless both messages quote their texts. -/
lemma message_of_cause {f g : Fault} (h : f.cause = g.cause) :
    (Document.errorOf a f).message = (Document.errorOf b g).message ∨
      (Document.errorOf a f).Quotes a ∧ (Document.errorOf b g).Quotes b := by
  simp only [Document.errorOf, Fault.message, SyntaxError.Quotes, ← h]
  rcases f.cause with wanted | _ | _
  · exact .inl rfl
  · exact .inr ⟨rfl, rfl⟩
  · exact .inl rfl

/-- Faults with the same causes have the same messages up to what they quote. -/
lemma errors_of_causes {fs gs : List Fault} (h : fs.map (·.cause) = gs.map (·.cause)) :
    List.Forall₂ (fun e f => e.message = f.message ∨ e.Quotes a ∧ f.Quotes b)
      (fs.map (Document.errorOf a)) (gs.map (Document.errorOf b)) := by
  rw [← List.forall₂_eq_eq_eq, List.forall₂_map_left_iff, List.forall₂_map_right_iff] at h
  rw [List.forall₂_map_left_iff, List.forall₂_map_right_iff]
  exact h.imp fun _ _ => message_of_cause

/-! ## Schemas -/

/-- Tokens of the same kind that spell the same word. -/
def SameWord (a b : Text) (t u : Token) : Prop :=
  t.kind = u.kind ∧ t.spelling a = u.spelling b

/-- Tokens that spell the same word have one kind. -/
lemma SameWord.kind_eq (t u : Token) (h : SameWord a b t u) : t.kind = u.kind :=
  h.1

/-- Tokens of the same kinds and spellings spell the same words. -/
lemma forall₂_sameWord {ts us : List Token} (hk : ts.map (·.kind) = us.map (·.kind))
    (hs : ts.map (·.spelling a) = us.map (·.spelling b)) : List.Forall₂ (SameWord a b) ts us := by
  rw [← List.forall₂_eq_eq_eq, List.forall₂_map_left_iff, List.forall₂_map_right_iff] at hk hs
  exact hk.mp (fun _ _ kind spelling => ⟨kind, spelling⟩) hs

namespace Schema

/-- Trees of the same shape that spell the same words. -/
def SameWords (a b : Text) (x y : Tree) : Prop :=
  Tree.Alike (SameWord a b) [x] [y]

variable {ts us : List Tree} {x y : Tree}

/-- Trees that spell the same words have one kind. -/
lemma SameWords.kind_eq (h : SameWords a b x y) : x.kind = y.kind :=
  Tree.Alike.kind_eq SameWord.kind_eq h

/-- The children of trees that spell the same words do so, too. -/
lemma SameWords.children (h : SameWords a b x y) :
    List.Forall₂ (SameWords a b) x.children y.children :=
  (Tree.Alike.children h).forall₂

/-- Nodes of the kinds of tokens cover the same words. -/
lemma texts_alike {p : Kind → Bool} (hp : ∀ k, p k = true → k.isToken = true)
    (h : Tree.Alike (SameWord a b) ts us) :
    (ts.filter (p ·.kind)).map (·.textIn a) = (us.filter (p ·.kind)).map (·.textIn b) := by
  induction h with
  | nil => rfl
  | @token t u _ _ same _ ih =>
    have kinds : (leaf t).kind = (leaf u).kind := same.1
    rw [List.filter_cons, List.filter_cons, kinds]
    split
    · exact congrArg₂ List.cons same.2 ih
    · exact ih
  | @node k _ _ _ _ _ _ _ _ hk _ _ _ ih =>
    have other : p k = false := by
      rw [← Bool.not_eq_true]
      exact fun pass => nomatch hk.symm.trans (hp k pass)
    simpa [other] using ih

/-- What passes in one list is like what passes in the other. -/
lemma filter_alike {p q : Tree → Bool} (hp : ∀ x y, SameWords a b x y → p x = q y)
    (h : List.Forall₂ (SameWords a b) ts us) :
    List.Forall₂ (SameWords a b) (ts.filter p) (us.filter q) :=
  List.rel_filter (fun x y same => Bool.eq_iff_iff.mp (hp x y same)) h

/-- The trees of a kind in one list are like those in the other. -/
lemma filter_kind_alike (k : Kind) (h : List.Forall₂ (SameWords a b) ts us) :
    List.Forall₂ (SameWords a b) (ts.filter (·.kind == k)) (us.filter (·.kind == k)) :=
  filter_alike (fun _ _ same => by rw [same.kind_eq]) h

/-- The first trees of two lists are alike. -/
lemma head?_alike (h : List.Forall₂ (SameWords a b) ts us) :
    Option.Rel (SameWords a b) ts.head? us.head? := by
  cases h with
  | nil => exact .none
  | cons same _ => exact .some same

/-- The first child of the kind of a token covers the same word. -/
lemma childText_alike {k : Kind} (hk : k.isToken = true) (h : SameWords a b x y) :
    (x.child? k).map (·.textIn a) = (y.child? k).map (·.textIn b) := by
  have texts := texts_alike (p := (· == k)) (fun _ e => eq_of_beq e ▸ hk) (Tree.Alike.children h)
  rw [child?, child?, ← List.head?_filter, ← List.head?_filter, ← List.head?_map, texts,
    List.head?_map]

/-- Type references that spell the same words are read as one label. -/
lemma labelOfRef_alike (h : SameWords a b x y) : labelOfRef x a = labelOfRef y b := by
  refine congrArg (":".intercalate ·) ?_
  refine texts_alike (p := fun k => k == .label || k == .rootKind) ?_ (Tree.Alike.children h)
  intro k
  cases k <;> decide

/-- Trees that spell the same words are read as one constraint. -/
lemma constraint?_alike (h : SameWords a b x y) : constraint? x a = constraint? y b := by
  have keyword := head?_alike h.children
  have ref := head?_alike (filter_kind_alike .typeRef h.children)
  rw [List.head?_filter, List.head?_filter] at ref
  rw [constraint?, constraint?, child?, child?]
  generalize x.children.head? = k, y.children.head? = k' at keyword ⊢
  generalize x.children.find? _ = r, y.children.find? _ = r' at ref ⊢
  cases keyword with
  | none => rfl
  | some same =>
    cases ref with
    | none => rfl
    | some same' => simp [same.kind_eq, labelOfRef_alike same']

/-- Trees that spell the same words have the same constraints. -/
lemma constraintsOf_alike (h : SameWords a b x y) : constraintsOf x a = constraintsOf y b := by
  have same := filter_kind_alike .typeConstraint h.children
  rw [constraintsOf, constraintsOf]
  generalize x.children.filter _ = cs, y.children.filter _ = ds at same ⊢
  induction same with
  | nil => rfl
  | cons same _ ih => rw [List.filterMap_cons, List.filterMap_cons, constraint?_alike same, ih]

/-- Definitions that spell the same words are recorded as the same. -/
lemma record_alike (s : Schema) (h : SameWords a b x y) : record a s x = record b s y := by
  have label := childText_alike (k := .label) rfl h
  have kind := childText_alike (k := .rootKind) rfl h
  have same (l : String) : isAttributeDefinition s x l a = isAttributeDefinition s y l b := by
    rw [isAttributeDefinition, isAttributeDefinition]
    cases hx : x.child? .rootKind <;> cases hy : y.child? .rootKind <;> simp_all
  rw [record, record, changesOf, changesOf, constraintsOf_alike h]
  cases hx : x.child? .label <;> cases hy : y.child? .label <;> simp_all

/-- Of two queries that spell the same words, both define types or none does. -/
lemma isDefining_alike (h : SameWords a b x y) : isDefining x = isDefining y := by
  have keyword := head?_alike h.children
  rw [isDefining, isDefining]
  generalize x.children.head? = k, y.children.head? = k' at keyword ⊢
  cases keyword with
  | none => rfl
  | some same => simp only [same.kind_eq]

/-- The definitions of trees that spell the same words correspond. -/
lemma definables_alike (h : SameWords a b x y) :
    List.Forall₂ (SameWords a b) (definables x) (definables y) := by
  have nodes : List.Forall₂ (SameWords a b) x.preorder y.preorder := by
    have nodes := (Tree.Alike.preorderAll h).forall₂
    rwa [preorderAll_cons, preorderAll_cons, preorderAll_nil, List.append_nil,
      List.append_nil] at nodes
  refine List.rel_flatMap (filter_alike (fun _ _ same => ?_) nodes) fun _ _ same => ?_
  · rw [same.kind_eq, isDefining_alike same]
  · exact filter_kind_alike .definable same.children

/-- Trees that spell the same words declare one schema. -/
theorem extract_alike (h : SameWords a b x y) : extract x a = extract y b := by
  rw [extract, extract]
  refine List.rel_foldl (P := (· = ·)) ?_ rfl (definables_alike h)
  rintro s _ rfl x y same
  exact record_alike s same

end Schema

/-! ## Texts with the same tokens -/

/--
Texts whose tokens have the same kinds have trees of the same shape and errors with the same
messages, but for the texts that some of them quote. If the tokens spell the same words, the texts
declare the same schema.
-/
theorem parse_reformatted (a b : Text)
    (kinds : (tokenize a).map (·.kind) = (tokenize b).map (·.kind)) :
    (parseTree a).preorder.map (fun n => (n.kind, n.children.length)) =
      (parseTree b).preorder.map (fun n => (n.kind, n.children.length)) ∧
    List.Forall₂ (fun e f => e.message = f.message ∨ e.Quotes a ∧ f.Quotes b)
      (parse a).errors (parse b).errors ∧
    ((tokenize a).map (·.spelling a) = (tokenize b).map (·.spelling b) →
      Schema.ofText a = Schema.ofText b) := by
  have same : List.Forall₂ (fun t u => t.kind = u.kind) (tokenize a) (tokenize b) := by
    rwa [← List.forall₂_eq_eq_eq, List.forall₂_map_left_iff, List.forall₂_map_right_iff] at kinds
  refine ⟨?_, ?_, ?_⟩
  · simpa using (parseTree_alike (fun _ _ h => h) same).shape_eq fun _ _ h => h
  · rw [errors_of_text, errors_of_text]
    exact errors_of_causes (readDocument_alike (fun _ _ h => h) same).causes
  · intro spellings
    have words := forall₂_sameWord kinds spellings
    exact Schema.extract_alike (parseTree_alike SameWord.kind_eq words)

/-- A definition with a bracket behind it, and the same on two lines with a comment. -/
theorem parse_reformatted_lines :
    (tokenize "define a owns b;)".toList).map (·.kind) =
      (tokenize "define a # type\nowns b ; )".toList).map (·.kind) ∧
    (parseTree "define a owns b;)".toList).preorder.map (fun n => (n.kind, n.children.length)) =
      (parseTree "define a # type\nowns b ; )".toList).preorder.map
        (fun n => (n.kind, n.children.length)) ∧
    List.Forall₂
      (fun e f => e.message = f.message ∨ e.Quotes "define a owns b;)".toList ∧
        f.Quotes "define a # type\nowns b ; )".toList)
      (parse "define a owns b;)".toList).errors
      (parse "define a # type\nowns b ; )".toList).errors ∧
    Schema.ofText "define a owns b;)".toList = Schema.ofText "define a # type\nowns b ; )".toList := by
  have kinds : (tokenize "define a owns b;)".toList).map (·.kind) =
      (tokenize "define a # type\nowns b ; )".toList).map (·.kind) := by decide
  obtain ⟨shape, errors, schema⟩ := parse_reformatted _ _ kinds
  exact ⟨kinds, shape, errors, schema (by decide)⟩

end TypeqlAssist

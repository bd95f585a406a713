import TypeqlAssist.Proofs.Schema.Changes
import TypeqlAssist.Schema.Extract

/-!
# The schema of a document, declared

A definition is one of an attribute or of an object type, and without a root kind this depends on
the definitions before it. Once all of them are classified (`classify`), the schema of a document
can be read off them: `Declares` says how, without an order in which anything is recorded.
-/

namespace TypeqlAssist

/-- Only what passes a test adds to a list. -/
lemma flatMap_filter {α β : Type} (p : α → Bool) (f : α → List β) (as : List α) :
    (as.filter p).flatMap f = as.flatMap fun a => if p a then f a else [] := by
  induction as with
  | nil => rfl
  | cons a as ih =>
    rw [List.filter_cons, List.flatMap_cons, ← ih]
    split <;> rfl

namespace Schema

/-! ## Definitions -/

/-- A definition with its label, its root kind if it has one, and its keywords with targets. -/
structure Definition where
  label : String
  rootKind : Option String
  constraints : List (Kind × String)
  deriving DecidableEq, Repr

/-- The targets of the constraints with a keyword, in order. -/
def Definition.targets (d : Definition) (k : Kind) : List String :=
  d.constraints.filterMap fun c => if c.1 = k then some c.2 else none

/-- The nodes that define types: those under a query whose first word is `define` or `redefine`. -/
def definitionNodes (root : Tree) : List Tree :=
  root.preorder.flatMap fun q =>
    if q.kind = .querySchema ∧
        q.children.head?.map (·.kind) ∈ [some .kwDefine, some .kwRedefine] then
      q.children.filter (·.kind == .definable)
    else []

/-- What a type reference spells: its labels, and a colon between them. -/
def spelled (text : Text) (ref : Tree) : String :=
  ":".intercalate (ref.children.filterMap fun part =>
    if part.kind ∈ [.label, .rootKind] then some (part.textIn text) else none)

/-- The keyword of a constraint and the type after it, if the constraint has one. -/
def stated? (text : Text) (c : Tree) : Option (Kind × String) :=
  match c.children, c.child? .typeRef with
  | keyword :: _, some ref =>
    if c.kind = .typeConstraint then some (keyword.kind, spelled text ref) else none
  | _, _ => none

/-- The definition that a node holds, if it has a label. -/
def definition? (text : Text) (t : Tree) : Option Definition :=
  (t.child? .label).map fun label =>
    ⟨label.textIn text, (t.child? .rootKind).map (·.textIn text),
      t.children.filterMap (stated? text)⟩

/-- The definitions of a text, in document order. -/
def definitions (text : Text) : List Definition :=
  (definitionNodes (parseTree text)).filterMap (definition? text)

/-- A definition that is known to be one of an attribute, or of an object type. -/
structure Classified extends Definition where
  ofAttribute : Bool
  deriving DecidableEq, Repr

/-- The attributes that are known by a definition: its own label, or what its type owns. -/
def Classified.attributes (d : Classified) : List String :=
  if d.ofAttribute then [d.label] else d.targets .kwOwns

/-- A definition is one of an attribute, given those before it. -/
def isAttribute (earlier : List Classified) (d : Definition) : Bool :=
  match d.rootKind with
  | some kind => kind == "attribute"
  | none => (earlier.flatMap Classified.attributes).contains d.label

/-- The definitions with their classes, each given those before it. -/
def classify (ds : List Definition) : List Classified :=
  ds.foldl (fun earlier d => earlier ++ [⟨d, isAttribute earlier d⟩]) []

/-- A schema declares what classified definitions say. -/
structure Declares (ds : List Classified) (s : Schema) : Prop where
  owns : ∀ o a, a ∈ s.owns o ↔
    ∃ d ∈ ds, d.ofAttribute = false ∧ d.label = o ∧ (.kwOwns, a) ∈ d.constraints
  plays : ∀ o r, r ∈ s.plays o ↔
    ∃ d ∈ ds, d.ofAttribute = false ∧ d.label = o ∧ (.kwPlays, r) ∈ d.constraints
  relates : ∀ o r, r ∈ s.relates o ↔
    ∃ d ∈ ds, d.ofAttribute = false ∧ d.label = o ∧ (.kwRelates, r) ∈ d.constraints
  /-- Both ends of an edge know it. -/
  owners : ∀ a o, o ∈ s.owners a ↔ a ∈ s.owns o
  /-- The last one that is said counts. -/
  objectSuper : ∀ o, (s.objectTypes.get? o).bind (·.supertype) =
    ((ds.filter fun d => d.ofAttribute = false ∧ d.label = o).flatMap (·.targets .kwSub)).getLast?
  attributeSuper : ∀ a, (s.attributes.get? a).bind (·.supertype) =
    ((ds.filter fun d => d.ofAttribute = true ∧ d.label = a).flatMap (·.targets .kwSub)).getLast?
  valueType : ∀ a, (s.attributes.get? a).bind (·.valueType) =
    ((ds.filter fun d => d.ofAttribute = true ∧ d.label = a).flatMap (·.targets .kwValue)).getLast?
  /-- Labels stand in the order of their first mention. -/
  objects : s.objectTypes.labels = distinct ((ds.filter (!·.ofAttribute)).map (·.label))
  attributes : s.attributes.labels = distinct (ds.flatMap (·.attributes))

/-! ## Reading -/

/-- The definitions found are those under queries that define types. -/
lemma definables_eq (root : Tree) : definables root = definitionNodes root := by
  rw [definables, flatMap_filter, definitionNodes]
  refine List.flatMap_congr fun q _ => ?_
  cases h : q.children.head? <;> simp [isDefining, h]

/-- The label read from a type reference is what it spells. -/
lemma labelOfRef_eq (ref : Tree) (text : Text) : labelOfRef ref text = spelled text ref := by
  rw [labelOfRef, spelled, ← List.filterMap_eq_map, List.filterMap_filter]
  congr 2
  funext part
  simp

/-- The constraints read from a definition are those its children state. -/
lemma constraintsOf_eq (t : Tree) (text : Text) :
    constraintsOf t text = t.children.filterMap (stated? text) := by
  rw [constraintsOf, List.filterMap_filter]
  congr 1
  funext c
  rw [stated?, constraint?]
  cases c.children with
  | nil => simp
  | cons keyword cs =>
    cases c.child? .typeRef with
    | none => simp
    | some ref => simp [labelOfRef_eq]

/-! ## Classes -/

/-- A definition is classified by those before it. -/
lemma classify_concat (ds : List Definition) (d : Definition) :
    classify (ds ++ [d]) = classify ds ++ [⟨d, isAttribute (classify ds) d⟩] := by
  rw [classify, List.foldl_concat, ← classify]

/-- The targets with a keyword are those of the constraints with it. -/
lemma mem_targets {d : Definition} {k : Kind} {a : String} :
    a ∈ d.targets k ↔ (k, a) ∈ d.constraints := by
  rw [Definition.targets, List.mem_filterMap]
  constructor
  · rintro ⟨⟨k', a'⟩, mem, e⟩
    split at e
    next same => cases same; cases e; exact mem
    next => cases e
  · exact fun mem => ⟨(k, a), mem, if_pos rfl⟩

/-- A definition names an attribute by being one or by owning it. -/
lemma mem_attributes {d : Classified} {a : String} : a ∈ d.attributes ↔
    d.ofAttribute = true ∧ d.label = a ∨ d.ofAttribute = false ∧ (.kwOwns, a) ∈ d.constraints := by
  rw [Classified.attributes]
  cases h : d.ofAttribute with
  | true => simp [eq_comm]
  | false => simp [mem_targets]

/-- A definition is one of an attribute by its keyword, or because one before it names it so. -/
lemma isAttribute_iff {earlier : List Classified} {d : Definition} :
    isAttribute earlier d = true ↔ d.rootKind = some "attribute" ∨
      d.rootKind = none ∧ ∃ e ∈ earlier, e.ofAttribute = true ∧ e.label = d.label ∨
        e.ofAttribute = false ∧ (.kwOwns, d.label) ∈ e.constraints := by
  rw [isAttribute]
  cases h : d.rootKind with
  | some kind => simp
  | none => simp [mem_attributes]

/-- The class of a definition comes from the part of the list before it. -/
lemma ofAttribute_of_classify {ds : List Definition} {earlier later : List Classified}
    {d : Classified} (h : classify ds = earlier ++ d :: later) :
    d.ofAttribute = isAttribute earlier d.toDefinition := by
  induction ds using List.reverseRecOn generalizing later with
  | nil => cases earlier <;> cases h
  | append_singleton ds c ih =>
    rw [classify_concat] at h
    cases later using List.reverseRecOn with
    | nil =>
      obtain ⟨same, last⟩ := List.append_inj' h rfl
      cases last
      rw [same]
    | append_singleton later e =>
      rw [← List.cons_append, ← List.append_assoc] at h
      exact ih (List.append_inj' h rfl).1

-- A label that is owned before it is defined is one of an attribute.
example : (classify [⟨"person", some "entity", [(.kwOwns, "email")]⟩, ⟨"email", none, []⟩,
    ⟨"person", none, []⟩]).map (·.ofAttribute) = [false, true, false] := by
  decide

/-- Classifying definitions keeps them and their order. -/
lemma map_classify (ds : List Definition) : (classify ds).map (·.toDefinition) = ds := by
  induction ds using List.reverseRecOn with
  | nil => rfl
  | append_singleton ds d ih => rw [classify_concat, List.map_append, ih]; rfl

/-! ## What classified definitions say -/

/-- The change that mentions a type. -/
def mention (ofAttribute : Bool) (label : String) : Change :=
  if ofAttribute then .attributeType label else .object label

/-- What a constraint says about a type. -/
def change? (ofAttribute : Bool) (label : String) (c : Kind × String) : Option Change :=
  if ofAttribute then attributeChange? label c else objectChange? label c

/-- The keyword decides what is said; a supertype is for both classes. -/
lemma change?_eq (b : Bool) (l : String) (c : Kind × String) : change? b l c =
    if c.1 = .kwSub then some (if b then .attributeSuper l c.2 else .objectSuper l c.2)
    else if b then if c.1 = .kwValue then some (.valueType l c.2) else none
    else if c.1 = .kwOwns then some (.owns l c.2)
    else if c.1 = .kwPlays then some (.plays l c.2)
    else if c.1 = .kwRelates then some (.relates l c.2)
    else none := by
  obtain ⟨k, target⟩ := c
  cases b <;> cases k <;> rfl

/-- The changes that a classified definition makes. -/
def Classified.changes (d : Classified) : List Change :=
  mention d.ofAttribute d.label :: d.constraints.filterMap (change? d.ofAttribute d.label)

variable {d : Classified} {ds : List Classified} {k : Kind} {o a : String} {c : Change} {s : Schema}

/-- A change that only one keyword of an object type makes. -/
lemma mem_changes (made : ∀ b l x, change? b l x = some c ↔ b = false ∧ l = o ∧ x = (k, a))
    (other : ∀ b l, c ≠ mention b l) :
    c ∈ ds.flatMap (·.changes) ↔
      ∃ d ∈ ds, d.ofAttribute = false ∧ d.label = o ∧ (k, a) ∈ d.constraints := by
  rw [List.mem_flatMap]
  refine exists_congr fun d => and_congr_right fun _ => ?_
  rw [Classified.changes, List.mem_cons, or_iff_right (other _ _), List.mem_filterMap]
  simp only [made]
  constructor
  · rintro ⟨x, mem, object, label, rfl⟩
    exact ⟨object, label, mem⟩
  · rintro ⟨object, label, mem⟩
    exact ⟨_, mem, object, label, rfl⟩

/-- What is said by only one keyword of one class of types. -/
lemma filterMap_changes {field : Change → Option String} {b : Bool}
    (made : ∀ b' l x, (change? b' l x).bind field =
      if b' = b ∧ l = o then if x.1 = k then some x.2 else none else none)
    (other : ∀ b' l, field (mention b' l) = none) :
    (ds.flatMap (·.changes)).filterMap field =
      (ds.filter fun d => d.ofAttribute = b ∧ d.label = o).flatMap (·.targets k) := by
  rw [List.filterMap_flatMap, flatMap_filter]
  refine List.flatMap_congr fun d _ => ?_
  rw [Classified.changes, List.filterMap_cons_none (other _ _), List.filterMap_filterMap]
  simp only [made, decide_eq_true_eq]
  split
  next => rfl
  next => exact List.filterMap_eq_nil_iff.mpr fun _ _ => rfl

/-- What a definition of an object type says mentions that type, and of an attribute none. -/
lemma object?_of_mem_changes (h : c ∈ d.changes) :
    c.object? = if d.ofAttribute then none else some d.label := by
  rcases List.mem_cons.mp h with rfl | h
  · cases d.ofAttribute <;> rfl
  · obtain ⟨x, _, e⟩ := List.mem_filterMap.mp h
    grind [change?_eq, Change.object?]

/-- What a definition of an attribute says mentions that attribute. -/
lemma attribute?_of_mem_changes (h : c ∈ d.changes) (own : d.ofAttribute = true) :
    c.attribute? = some d.label := by
  rcases List.mem_cons.mp h with rfl | h
  · rw [own]; rfl
  · obtain ⟨x, _, e⟩ := List.mem_filterMap.mp h
    grind [change?_eq, Change.attribute?]

/-- A definition of an object type mentions it, and one of an attribute mentions none. -/
lemma distinct_objects (d : Classified) : distinct (d.changes.filterMap Change.object?) =
    distinct (if d.ofAttribute then [] else [d.label]) := by
  have all := fun c (h : c ∈ d.changes) => object?_of_mem_changes h
  split
  next h =>
    simp only [h, if_true] at all
    rw [List.filterMap_eq_nil_iff.mpr all]
  next h =>
    simp only [h] at all
    exact distinct_filterMap_cons all

/-- The changes of a definition mention the attributes that it names. -/
lemma distinct_attributes (d : Classified) :
    distinct (d.changes.filterMap Change.attribute?) = distinct d.attributes := by
  rw [Classified.attributes]
  split
  next h => exact distinct_filterMap_cons fun c hc => attribute?_of_mem_changes hc h
  next h =>
    have object : d.ofAttribute = false := Bool.eq_false_iff.mpr h
    rw [Classified.changes, object, List.filterMap_cons_none rfl, List.filterMap_filterMap,
      Definition.targets]
    congr 2
    funext x
    grind [change?_eq, Change.attribute?]

/-- A schema that records the changes of definitions declares what they say. -/
lemma Records.declares (h : Records s (ds.flatMap (·.changes))) : Declares ds s where
  owns o a := by
    rw [owns_eq, h.owns]
    refine mem_changes (fun b l x => ?_) (fun b l => ?_)
    · grind [change?_eq]
    · cases b <;> nofun
  plays o r := by
    rw [plays_eq, h.plays]
    refine mem_changes (fun b l x => ?_) (fun b l => ?_)
    · grind [change?_eq]
    · cases b <;> nofun
  relates o r := by
    rw [relates_eq, h.relates]
    refine mem_changes (fun b l x => ?_) (fun b l => ?_)
    · grind [change?_eq]
    · cases b <;> nofun
  owners a o := by
    rw [owners_eq, owns_eq, h.owners, h.owns]
  objectSuper o := by
    rw [objectSuper_eq, h.objectSuper]
    refine congrArg _ (filterMap_changes (fun b l x => ?_) (fun b l => ?_))
    · grind [change?_eq, Change.objectSuper?]
    · cases b <;> rfl
  attributeSuper a := by
    rw [attributeSuper_eq, h.attributeSuper]
    refine congrArg _ (filterMap_changes (fun b l x => ?_) (fun b l => ?_))
    · grind [change?_eq, Change.attributeSuper?]
    · cases b <;> rfl
  valueType a := by
    rw [valueType_eq, h.valueType]
    refine congrArg _ (filterMap_changes (fun b l x => ?_) (fun b l => ?_))
    · grind [change?_eq, Change.valueType?]
    · cases b <;> rfl
  objects := by
    rw [h.objects, List.filterMap_flatMap, List.map_eq_flatMap, flatMap_filter]
    refine distinct_flatMap_congr fun d _ => ?_
    rw [distinct_objects]
    cases d.ofAttribute <;> rfl
  attributes := by
    rw [h.attributes, List.filterMap_flatMap]
    exact distinct_flatMap_congr fun d _ => distinct_attributes d

/-! ## Extraction -/

/-- The attributes that a schema knows are those that its definitions make known. -/
lemma contains_of_records (h : Records s (ds.flatMap (·.changes))) (label : String) :
    s.attributes.contains label = (ds.flatMap (·.attributes)).contains label := by
  rw [Bool.eq_iff_iff, Catalog.contains_iff, h.declares.attributes, mem_distinct,
    List.contains_iff_mem]

/-- A definition makes the changes of its class. -/
lemma changesOf_eq {text : Text} {t : Tree} {d : Definition} (hd : definition? text t = some d)
    (h : Records s (ds.flatMap (·.changes))) :
    changesOf s t text = (Classified.mk d (isAttribute ds d)).changes := by
  obtain ⟨label, hl, rfl⟩ := Option.map_eq_some_iff.mp hd
  have same : isAttributeDefinition s t (label.textIn text) text = isAttribute ds
      ⟨label.textIn text, (t.child? .rootKind).map (·.textIn text),
        t.children.filterMap (stated? text)⟩ := by
    rw [isAttributeDefinition, isAttribute]
    cases t.child? .rootKind with
    | some kind => rfl
    | none => exact contains_of_records h _
  simp only [changesOf, hl, same, constraintsOf_eq, Classified.changes]
  split
  next h => rw [h]; rfl
  next h => rw [Bool.eq_false_iff.mpr h]; rfl

/-- What is recorded from definitions are the changes of their classes. -/
lemma foldl_record (text : Text) (ts : List Tree) : ts.foldl (record text) empty =
    empty.applyAll ((classify (ts.filterMap (definition? text))).flatMap (·.changes)) := by
  induction ts using List.reverseRecOn with
  | nil => rfl
  | append_singleton ts t ih =>
    rw [List.foldl_concat, ih, List.filterMap_append, record]
    cases h : definition? text t with
    | none =>
      have none : t.child? .label = none := Option.map_eq_none_iff.mp h
      rw [changesOf, none, List.filterMap_cons_none h]
      simp [applyAll]
    | some d =>
      rw [changesOf_eq h (records_applyAll _), List.filterMap_cons_some h, List.filterMap_nil,
        classify_concat, List.flatMap_append, List.flatMap_singleton, applyAll, applyAll, applyAll,
        List.foldl_append]

/--
The schema of a text is what its definitions declare. A definition is one of an attribute if its
root kind says so, or if it has none and an earlier one either defines an attribute of its label or
lets an object type own one. Edges are those that some definition of an object type states, and are
known at both ends; a supertype or value type is the last one that is stated; and labels stand in
the order in which they are first defined, or first owned.
-/
theorem ofText_declares (text : Text) :
    (classify (definitions text)).map (·.toDefinition) = definitions text ∧
    (∀ earlier d later, classify (definitions text) = earlier ++ d :: later →
      (d.ofAttribute = true ↔ d.rootKind = some "attribute" ∨
        d.rootKind = none ∧ ∃ e ∈ earlier, e.ofAttribute = true ∧ e.label = d.label ∨
          e.ofAttribute = false ∧ (.kwOwns, d.label) ∈ e.constraints)) ∧
    Declares (classify (definitions text)) (ofText text) := by
  refine ⟨map_classify _, fun earlier d later h => ?_, ?_⟩
  · rw [ofAttribute_of_classify h, isAttribute_iff]
  · rw [ofText, extract, definables_eq, foldl_record]
    exact (records_applyAll _).declares

end Schema

end TypeqlAssist

import Mathlib.Data.List.Induction
import TypeqlAssist.Proofs.Distinct
import TypeqlAssist.Schema.Basic

/-!
# What a schema records

A schema is made by changes, one after the other, and what it holds can be told from the list of
them: edges are the ones that were ever added, a field is what it was last set to, and labels stand
in the order of their first mention (`Records`). Each change keeps this (`Records.apply`), so it
holds after any number of changes.
-/

namespace TypeqlAssist

/-! ## Edges -/

/-- The edges after adding one are the old ones and that one. -/
lemma mem_insertEdge {edges : List String} {target e : String} :
    e ∈ insertEdge edges target ↔ e ∈ edges ∨ target = e := by
  rw [insertEdge]
  split
  next old =>
    have there : target ∈ edges := List.contains_iff_mem.mp old
    exact ⟨.inl, fun h => h.elim id (· ▸ there)⟩
  next => rw [List.mem_append, List.mem_singleton, eq_comm (a := e)]

/-- An edge is looked for among those in front, and else added behind the rest. -/
lemma insertEdge_cons (e : String) (edges : List String) (target : String) :
    insertEdge (e :: edges) target =
      if e = target then e :: edges else e :: insertEdge edges target := by
  rw [insertEdge, insertEdge, List.contains_cons]
  by_cases same : e = target
  · simp [same]
  · rw [if_neg same, beq_eq_false_iff_ne.mpr (Ne.symm same), Bool.false_or]
    split <;> rfl

/-- An edge is added behind the distinct ones. -/
lemma insertEdge_distinct (edges : List String) (target : String) :
    insertEdge (distinct edges) target = distinct (edges ++ [target]) := by
  have parts : distinct (edges ++ [target]) =
      distinct edges ++ [target].filter fun b => edges.all fun a => b != a :=
    distinctBy_append ..
  rw [parts, insertEdge]
  split
  next old =>
    have there : target ∈ edges := mem_distinct.mp (List.contains_iff_mem.mp old)
    have none : [target].filter (fun b => edges.all fun a => b != a) = [] := by
      simpa using there
    rw [none, List.append_nil]
  next new =>
    have absent : target ∉ edges := fun h => new (List.contains_iff_mem.mpr (mem_distinct.mpr h))
    have one : [target].filter (fun b => edges.all fun a => b != a) = [target] := by
      simpa [List.forall_mem_ne] using absent
    rw [one]

/-! ## Catalogs -/

namespace Catalog

variable {α : Type} {fresh : α} {change : α → α}

/-- A label is looked up in the first entry, and else in the rest. -/
lemma get?_cons (l : String) (a : α) (rest : List (String × α)) (label : String) :
    (Catalog.mk ((l, a) :: rest)).get? label =
      if l = label then some a else (Catalog.mk rest).get? label := by
  by_cases e : l = label <;> simp [get?, e]

/-- A change reaches the entry of its label and no other. -/
lemma get?_alter (c : Catalog α) (label other : String) :
    (c.alter label fresh change).get? other =
      if label = other then some (change ((c.get? label).getD fresh)) else c.get? other := by
  obtain ⟨entries⟩ := c
  induction entries with
  | nil => exact get?_cons ..
  | cons entry rest ih =>
    obtain ⟨l, a⟩ := entry
    rw [get?_cons, get?_cons]
    simp only [alter, alterIn, beq_iff_eq] at ih ⊢
    split
    next e =>
      subst e
      rw [get?_cons]
      split <;> rfl
    next ne =>
      rw [get?_cons, ih]
      split
      next e => rw [if_neg fun e' => ne (e.trans e'.symm)]
      next => rfl

/-- A new label is added behind the others. -/
lemma labels_alter (c : Catalog α) (label : String) :
    (c.alter label fresh change).labels = insertEdge c.labels label := by
  obtain ⟨entries⟩ := c
  induction entries with
  | nil => rfl
  | cons entry rest ih =>
    obtain ⟨l, a⟩ := entry
    simp only [alter, alterIn, labels, List.map_cons, insertEdge_cons, beq_iff_eq] at ih ⊢
    split
    next => rfl
    next => rw [List.map_cons, ih]

/-- A catalog contains the labels that it lists. -/
lemma contains_iff {c : Catalog α} {label : String} :
    c.contains label = true ↔ label ∈ c.labels := by
  simp [contains, get?, labels]

end Catalog

namespace Schema

/-! ## Entries -/

/-- What is known of an object type, which is nothing if there is none of the label. -/
def objectType (s : Schema) (label : String) : ObjectType :=
  (s.objectTypes.get? label).getD .blank

/-- What is known of an attribute, which is nothing if there is none of the label. -/
def attributeType (s : Schema) (label : String) : AttributeType :=
  (s.attributes.get? label).getD .blank

variable (s : Schema) (label other : String)

/-- The attributes owned are those of the entry. -/
lemma owns_eq : s.owns label = (s.objectType label).owns := by
  rw [owns, objectType]
  cases s.objectTypes.get? label <;> rfl

/-- The roles played are those of the entry. -/
lemma plays_eq : s.plays label = (s.objectType label).plays := by
  rw [plays, objectType]
  cases s.objectTypes.get? label <;> rfl

/-- The roles related are those of the entry. -/
lemma relates_eq : s.relates label = (s.objectType label).relates := by
  rw [relates, objectType]
  cases s.objectTypes.get? label <;> rfl

/-- The owners are those of the entry. -/
lemma owners_eq : s.owners label = (s.attributeType label).owners := by
  rw [owners, attributeType]
  cases s.attributes.get? label <;> rfl

/-- The supertype of an object type is that of the entry. -/
lemma objectSuper_eq :
    (s.objectTypes.get? label).bind (·.supertype) = (s.objectType label).supertype := by
  rw [objectType]
  cases s.objectTypes.get? label <;> rfl

/-- The supertype of an attribute is that of the entry. -/
lemma attributeSuper_eq :
    (s.attributes.get? label).bind (·.supertype) = (s.attributeType label).supertype := by
  rw [attributeType]
  cases s.attributes.get? label <;> rfl

/-- The value type is that of the entry. -/
lemma valueType_eq :
    (s.attributes.get? label).bind (·.valueType) = (s.attributeType label).valueType := by
  rw [attributeType]
  cases s.attributes.get? label <;> rfl

/-- A change of an object type reaches its entry and no other. -/
@[simp]
lemma objectType_alterObject (change : ObjectType → ObjectType) :
    (s.alterObject label change).objectType other =
      if label = other then change (s.objectType other) else s.objectType other := by
  rw [objectType, alterObject, Catalog.get?_alter]
  split
  next e => rw [e]; rfl
  next => rfl

/-- A change of an object type reaches no attribute. -/
@[simp]
lemma attributeType_alterObject (change : ObjectType → ObjectType) :
    (s.alterObject label change).attributeType other = s.attributeType other := rfl

/-- A change of an attribute reaches its entry and no other. -/
@[simp]
lemma attributeType_alterAttribute (change : AttributeType → AttributeType) :
    (s.alterAttribute label change).attributeType other =
      if label = other then change (s.attributeType other) else s.attributeType other := by
  rw [attributeType, alterAttribute, Catalog.get?_alter]
  split
  next e => rw [e]; rfl
  next => rfl

/-- A change of an attribute reaches no object type. -/
@[simp]
lemma objectType_alterAttribute (change : AttributeType → AttributeType) :
    (s.alterAttribute label change).objectType other = s.objectType other := rfl

/-! ## What changes say -/

namespace Change

/-- The object type that a change mentions. -/
def object? : Change → Option String
  | object label | owns label _ | plays label _ | relates label _
  | objectSuper label _ => some label
  | attributeType _ | attributeSuper _ _ | valueType _ _ => none

/-- The attribute that a change mentions. -/
def attribute? : Change → Option String
  | attributeType label | owns _ label | attributeSuper label _ | valueType label _ => some label
  | object _ | plays _ _ | relates _ _ | objectSuper _ _ => none

/-- The supertype that a change gives an object type. -/
def objectSuper? (label : String) : Change → Option String
  | objectSuper l supertype => if l = label then some supertype else none
  | _ => none

/-- The supertype that a change gives an attribute. -/
def attributeSuper? (label : String) : Change → Option String
  | attributeSuper l supertype => if l = label then some supertype else none
  | _ => none

/-- The value type that a change gives an attribute. -/
def valueType? (label : String) : Change → Option String
  | valueType l value => if l = label then some value else none
  | _ => none

end Change

/-- A schema holds what some changes say, in order. -/
structure Records (s : Schema) (cs : List Change) : Prop where
  owns : ∀ o a, a ∈ (s.objectType o).owns ↔ .owns o a ∈ cs
  owners : ∀ a o, o ∈ (s.attributeType a).owners ↔ .owns o a ∈ cs
  plays : ∀ o r, r ∈ (s.objectType o).plays ↔ .plays o r ∈ cs
  relates : ∀ o r, r ∈ (s.objectType o).relates ↔ .relates o r ∈ cs
  objectSuper : ∀ o, (s.objectType o).supertype = (cs.filterMap (Change.objectSuper? o)).getLast?
  attributeSuper : ∀ a,
    (s.attributeType a).supertype = (cs.filterMap (Change.attributeSuper? a)).getLast?
  valueType : ∀ a, (s.attributeType a).valueType = (cs.filterMap (Change.valueType? a)).getLast?
  objects : s.objectTypes.labels = distinct (cs.filterMap Change.object?)
  attributes : s.attributes.labels = distinct (cs.filterMap Change.attribute?)

variable {s} {cs : List Change}

/-- An empty schema records no change. -/
lemma records_empty : Records empty [] where
  owns _ _ := ⟨nofun, nofun⟩
  owners _ _ := ⟨nofun, nofun⟩
  plays _ _ := ⟨nofun, nofun⟩
  relates _ _ := ⟨nofun, nofun⟩
  objectSuper _ := rfl
  attributeSuper _ := rfl
  valueType _ := rfl
  objects := rfl
  attributes := rfl

/-- An edge that is added under a condition. -/
lemma mem_ite_insertEdge {p : Prop} [Decidable p] {edges : List String} {target e : String} :
    e ∈ (if p then insertEdge edges target else edges) ↔ e ∈ edges ∨ p ∧ target = e := by
  split
  next h => rw [mem_insertEdge, and_iff_right h]
  next h => rw [or_iff_left fun h' => h h'.1]

/-- A field that is set under a condition. -/
lemma ite_some_or {p : Prop} [Decidable p] {x : String} {y : Option String} :
    (if p then some x else none).or y = if p then some x else y := by
  split <;> rfl

/-- A change is recorded behind the ones before it. -/
lemma Records.apply (h : Records s cs) (c : Change) : Records (s.apply c) (cs ++ [c]) where
  owns o a := by
    rw [List.mem_append, List.mem_singleton, ← h.owns, @eq_comm _ _ c]
    cases c <;> simp [Schema.apply, apply_ite ObjectType.owns, mem_ite_insertEdge]
  owners a o := by
    rw [List.mem_append, List.mem_singleton, ← h.owners, @eq_comm _ _ c]
    cases c <;> simp [Schema.apply, apply_ite AttributeType.owners, mem_ite_insertEdge, and_comm]
  plays o r := by
    rw [List.mem_append, List.mem_singleton, ← h.plays, @eq_comm _ _ c]
    cases c <;> simp [Schema.apply, apply_ite ObjectType.plays, mem_ite_insertEdge]
  relates o r := by
    rw [List.mem_append, List.mem_singleton, ← h.relates, @eq_comm _ _ c]
    cases c <;> simp [Schema.apply, apply_ite ObjectType.relates, mem_ite_insertEdge]
  objectSuper o := by
    rw [List.filterMap_append, List.getLast?_append, ← h.objectSuper]
    cases c <;>
      simp [Schema.apply, apply_ite ObjectType.supertype, Change.objectSuper?, ite_some_or]
  attributeSuper a := by
    rw [List.filterMap_append, List.getLast?_append, ← h.attributeSuper]
    cases c <;>
      simp [Schema.apply, apply_ite AttributeType.supertype, Change.attributeSuper?, ite_some_or]
  valueType a := by
    rw [List.filterMap_append, List.getLast?_append, ← h.valueType]
    cases c <;>
      simp [Schema.apply, apply_ite AttributeType.valueType, Change.valueType?, ite_some_or]
  objects := by
    rw [List.filterMap_append]
    cases c <;> simp [Schema.apply, alterObject, alterAttribute, Catalog.labels_alter,
      insertEdge_distinct, h.objects, List.filterMap_cons, Change.object?]
  attributes := by
    rw [List.filterMap_append]
    cases c <;> simp [Schema.apply, alterObject, alterAttribute, Catalog.labels_alter,
      insertEdge_distinct, h.attributes, List.filterMap_cons, Change.attribute?]

/-- A schema holds what the changes say that made it. -/
theorem records_applyAll (cs : List Change) : Records (empty.applyAll cs) cs := by
  induction cs using List.reverseRecOn with
  | nil => exact records_empty
  | append_singleton cs c ih =>
    rw [applyAll, List.foldl_concat]
    exact ih.apply c

end Schema

end TypeqlAssist

import TypeqlAssist.Proofs.Schema.Changes

/-!
# Edges at both ends

A change appends to the lists of a schema, each time one entry at most and never one that is there
(`growth_apply`). So no list repeats itself, however many changes are made; and an edge that a type
has to an attribute is known at both ends (`edges_two_sided`).
-/

namespace TypeqlAssist

/-! ## Lists that grow -/

/-- A list becomes another by the addition of one entry at most. -/
inductive Grows (es : List String) : List String → Prop where
  | same :
    Grows es es
  | insert (e : String) :
    Grows es (insertEdge es e)

variable {es es' : List String}

/-- Edges grow, too, by one that is added under a condition. -/
lemma grows_ite {p : Prop} [Decidable p] {e : String} :
    Grows es (if p then insertEdge es e else es) := by
  split
  · exact .insert e
  · exact .same

/-- What was there before stays in front. -/
lemma Grows.starts (h : Grows es es') : es <+: es' := by
  cases h with
  | same => exact List.prefix_rfl
  | insert e =>
    rw [insertEdge]
    split
    · exact List.prefix_rfl
    · exact List.prefix_append es [e]

/-- Edges that are all different stay so as they grow. -/
lemma Grows.nodup (h : Grows es es') (nodup : es.Nodup) : es'.Nodup := by
  cases h with
  | same => exact nodup
  | insert e =>
    rw [insertEdge]
    split
    next => exact nodup
    next new =>
      have absent : e ∉ es := fun old => new (List.contains_iff_mem.mpr old)
      exact List.nodup_append'.mpr ⟨nodup, List.nodup_singleton e, by simpa using absent⟩

namespace Schema

/-! ## One change -/

/-- All lists of a schema become those of another by the addition of one entry at most. -/
structure Growth (s s' : Schema) : Prop where
  objects : Grows s.objectTypes.labels s'.objectTypes.labels
  attributes : Grows s.attributes.labels s'.attributes.labels
  owns : ∀ o, Grows (s.owns o) (s'.owns o)
  plays : ∀ o, Grows (s.plays o) (s'.plays o)
  relates : ∀ o, Grows (s.relates o) (s'.relates o)
  owners : ∀ a, Grows (s.owners a) (s'.owners a)

/-- A change adds one entry at most to each list. -/
lemma growth_apply (s : Schema) (c : Change) : Growth s (s.apply c) where
  objects := by
    cases c with
    | attributeType | attributeSuper | valueType => exact .same
    | object | owns | plays | relates | objectSuper =>
      exact Catalog.labels_alter s.objectTypes _ ▸ .insert _
  attributes := by
    cases c with
    | object | plays | relates | objectSuper => exact .same
    | attributeType | owns | attributeSuper | valueType =>
      exact Catalog.labels_alter s.attributes _ ▸ .insert _
  owns o := by
    rw [owns_eq, owns_eq]
    cases c <;> simp [Schema.apply, apply_ite ObjectType.owns, grows_ite, Grows.same]
  plays o := by
    rw [plays_eq, plays_eq]
    cases c <;> simp [Schema.apply, apply_ite ObjectType.plays, grows_ite, Grows.same]
  relates o := by
    rw [relates_eq, relates_eq]
    cases c <;> simp [Schema.apply, apply_ite ObjectType.relates, grows_ite, Grows.same]
  owners a := by
    rw [owners_eq, owners_eq]
    cases c <;> simp [Schema.apply, apply_ite AttributeType.owners, grows_ite, Grows.same]

/-! ## Any number of changes -/

/-- No list of a schema repeats itself. -/
structure Unrepeated (s : Schema) : Prop where
  objects : s.objectTypes.labels.Nodup
  attributes : s.attributes.labels.Nodup
  owns : ∀ o, (s.owns o).Nodup
  plays : ∀ o, (s.plays o).Nodup
  relates : ∀ o, (s.relates o).Nodup
  owners : ∀ a, (s.owners a).Nodup

variable {s s' : Schema} {cs : List Change}

/-- An empty schema repeats nothing. -/
lemma unrepeated_empty : Unrepeated empty :=
  ⟨.nil, .nil, fun _ => .nil, fun _ => .nil, fun _ => .nil, fun _ => .nil⟩

/-- A schema that grows still repeats nothing. -/
lemma Growth.unrepeated (h : Growth s s') (u : Unrepeated s) : Unrepeated s' where
  objects := h.objects.nodup u.objects
  attributes := h.attributes.nodup u.attributes
  owns o := (h.owns o).nodup (u.owns o)
  plays o := (h.plays o).nodup (u.plays o)
  relates o := (h.relates o).nodup (u.relates o)
  owners a := (h.owners a).nodup (u.owners a)

/-- No change makes a schema repeat anything. -/
lemma unrepeated_applyAll (h : Unrepeated s) (cs : List Change) : Unrepeated (s.applyAll cs) := by
  induction cs generalizing s with
  | nil => exact h
  | cons c cs ih => exact ih ((growth_apply s c).unrepeated h)

/-- An edge is known at both ends, and the attribute at its end has an entry. -/
structure TwoSided (s : Schema) : Prop where
  edges : ∀ o a, a ∈ s.owns o ↔ o ∈ s.owners a
  entries : ∀ o a, a ∈ s.owns o → s.attributes.contains a = true

/-- Both ends of an edge are told by the change that made it. -/
lemma Records.twoSided (h : Records s cs) : TwoSided s where
  edges o a := by
    rw [owns_eq, owners_eq, h.owns, h.owners]
  entries o a edge := by
    rw [owns_eq, h.owns] at edge
    rw [Catalog.contains_iff, h.attributes, mem_distinct]
    exact List.mem_filterMap.mpr ⟨_, edge, rfl⟩

/-- The lists of one schema stand at the front of those of another. -/
structure Extends (s s' : Schema) : Prop where
  objects : s.objectTypes.labels <+: s'.objectTypes.labels
  attributes : s.attributes.labels <+: s'.attributes.labels
  owns : ∀ o, s.owns o <+: s'.owns o
  plays : ∀ o, s.plays o <+: s'.plays o
  relates : ∀ o, s.relates o <+: s'.relates o
  owners : ∀ a, s.owners a <+: s'.owners a

/-- A schema that grows keeps its lists at the front. -/
lemma Growth.extends (h : Growth s s') : Extends s s' where
  objects := h.objects.starts
  attributes := h.attributes.starts
  owns o := (h.owns o).starts
  plays o := (h.plays o).starts
  relates o := (h.relates o).starts
  owners a := (h.owners a).starts

/--
After any changes, an attribute is one that a type owns if and only if the type is one of its
owners, and then it has an entry. No list of edges and no list of labels repeats itself, and one
more change leaves all of them as they are, but for what it appends.
-/
theorem edges_two_sided (cs : List Change) :
    TwoSided (empty.applyAll cs) ∧ Unrepeated (empty.applyAll cs) ∧
    ∀ c, Extends (empty.applyAll cs) (empty.applyAll (cs ++ [c])) := by
  refine ⟨(records_applyAll cs).twoSided, unrepeated_applyAll unrepeated_empty cs, fun c => ?_⟩
  have step : empty.applyAll (cs ++ [c]) = (empty.applyAll cs).apply c := List.foldl_concat ..
  rw [step]
  exact (growth_apply _ c).extends

-- An attribute that owns itself stands in both catalogs under one label.
example :
    (empty.applyAll [.attributeType "name", .owns "name" "name"]).owners "name" = ["name"] := by
  decide

end Schema

end TypeqlAssist

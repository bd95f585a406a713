/-!
# Catalogs

Entries by label, in the order in which the labels were first mentioned.
-/

namespace TypeqlAssist

/-- Entries with distinct labels, in the order of their first mention. -/
structure Catalog (α : Type) where
  entries : List (String × α)
  deriving DecidableEq, Repr, Inhabited

namespace Catalog

variable {α : Type}

/-- A catalog without entries. -/
def empty : Catalog α :=
  ⟨[]⟩

/-- The labels, in order. -/
def labels (c : Catalog α) : List String :=
  c.entries.map (·.1)

/-- The entry of a label. -/
def get? (c : Catalog α) (label : String) : Option α :=
  (c.entries.find? (·.1 == label)).map (·.2)

/-- The label has an entry. -/
def contains (c : Catalog α) (label : String) : Bool :=
  (c.get? label).isSome

/-- Changes the entry of a label; a new label gets the change of `fresh`, behind the others. -/
def alterIn (label : String) (fresh : α) (change : α → α) : List (String × α) → List (String × α)
  | [] => [(label, change fresh)]
  | (l, a) :: rest =>
    if l == label then (l, change a) :: rest else (l, a) :: alterIn label fresh change rest

/-- The catalog with the entry of a label changed, or added if there was none. -/
def alter (c : Catalog α) (label : String) (fresh : α) (change : α → α) : Catalog α :=
  ⟨alterIn label fresh change c.entries⟩

end Catalog

end TypeqlAssist

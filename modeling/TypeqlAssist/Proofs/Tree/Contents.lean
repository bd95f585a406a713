import TypeqlAssist.Proofs.Tree.Layout

/-!
# The contents of trees

What a row of trees holds, read in document order: the tokens, which are the nodes with a width
and without children, and the faults, which are the error nodes that wrap tokens or mark a gap.
-/

namespace TypeqlAssist

namespace Tree

/-! ## Tokens -/

/-- A node with a width and without children. -/
def isLeaf (t : Tree) : Bool :=
  t.children.isEmpty && decide (t.start < t.stop)

/-- The kind and the span of a node. -/
def token (t : Tree) : Token :=
  ⟨t.kind, t.start, t.stop⟩

/-- The tokens of a row of trees. -/
def tokensOf (ts : List Tree) : List Token :=
  ((preorderAll ts).filter isLeaf).map token

/-- No tree holds no token. -/
@[simp]
lemma tokensOf_nil : tokensOf [] = [] := rfl

/-- The tokens of two rows are those of the one and those of the other. -/
@[simp]
lemma tokensOf_append (ts us : List Tree) : tokensOf (ts ++ us) = tokensOf ts ++ tokensOf us := by
  simp only [tokensOf, preorderAll_append, List.filter_append, List.map_append]

/-- Leaves with a width hold their tokens. -/
lemma tokensOf_leaves {ts : List Token} (h : ∀ t ∈ ts, t.start < t.stop) :
    tokensOf (ts.map leaf) = ts := by
  have all : (ts.map leaf).filter isLeaf = ts.map leaf := by
    rw [List.filter_eq_self]
    intro n hn
    obtain ⟨t, ht, rfl⟩ := List.mem_map.mp hn
    exact decide_eq_true (h t ht)
  rw [tokensOf, preorderAll_leaves, all, List.map_map]
  exact List.map_id ts

/-- A node holds what its children do, unless it has none and a width. -/
lemma tokensOf_node {k : Kind} {a b : Nat} {cs : List Tree} (h : cs = [] → a = b) :
    tokensOf [node k a b cs] = tokensOf cs := by
  have inner : (node k a b cs).isLeaf = false := by
    cases cs with
    | nil => simp [isLeaf, h rfl]
    | cons => rfl
  simp only [tokensOf, preorderAll_cons, preorder_node, preorderAll_nil, List.append_nil,
    List.filter_cons, inner, Bool.false_eq_true, if_false]

/-! ## Faults -/

/-- An error node that wraps tokens, or marks a gap by having no width. -/
def isFault (t : Tree) : Bool :=
  t.kind == .error && (!t.children.isEmpty || t.start == t.stop)

/-- The faults of a row of trees. -/
def faultsOf (ts : List Tree) : List Tree :=
  (preorderAll ts).filter isFault

/-- What a fault concerns: from its start to where its last child stops. -/
def faultSpan (t : Tree) : Nat × Nat :=
  (t.start, lastStop t.start t.children)

/-- The faults of two rows are those of the one and those of the other. -/
@[simp]
lemma faultsOf_append (ts us : List Tree) : faultsOf (ts ++ us) = faultsOf ts ++ faultsOf us := by
  simp only [faultsOf, preorderAll_append, List.filter_append]

/-- A leaf with a width is no fault. -/
lemma isFault_leaf {t : Token} (h : t.start < t.stop) : (leaf t).isFault = false := by
  have ne : (t.start == t.stop) = false := beq_false_of_ne (Nat.ne_of_lt h)
  simp [isFault, leaf, ne]

/-- Leaves with a width hold no fault. -/
lemma faultsOf_leaves {ts : List Token} (h : ∀ t ∈ ts, t.start < t.stop) :
    faultsOf (ts.map leaf) = [] := by
  rw [faultsOf, preorderAll_leaves, List.filter_eq_nil_iff]
  intro n hn
  obtain ⟨t, ht, rfl⟩ := List.mem_map.mp hn
  rw [isFault_leaf (h t ht)]
  exact Bool.false_ne_true

/-- A node that is no error holds the faults of its children. -/
lemma faultsOf_node {k : Kind} {a b : Nat} {cs : List Tree} (h : k ≠ .error) :
    faultsOf [node k a b cs] = faultsOf cs := by
  have plain : (node k a b cs).isFault = false := by
    simp [isFault, h]
  simp only [faultsOf, preorderAll_cons, preorder_node, preorderAll_nil, List.append_nil,
    List.filter_cons, plain, Bool.false_eq_true, if_false]

/-- An error node over trees without faults is a fault, if it has no width where it has no child. -/
lemma faultsOf_error {a b : Nat} {cs : List Tree} (h : cs = [] → a = b) (hc : faultsOf cs = []) :
    faultsOf [node .error a b cs] = [node .error a b cs] := by
  have fault : (node .error a b cs).isFault = true := by
    cases cs with
    | nil => simp [isFault, h rfl]
    | cons => rfl
  simp only [faultsOf, preorderAll_cons, preorder_node, preorderAll_nil, List.append_nil,
    List.filter_cons, fault, if_true]
  exact congrArg _ hc

end Tree

end TypeqlAssist

import TypeqlAssist.Proofs.Grammar.Reading

/-!
# Inner nodes

What holds of every node of what is read (`AllNodes`) is put together from what holds of each node
that is made. So the nodes with children are the productions of the grammar and the errors, and a
node of the kind of a token is a token.
-/

namespace TypeqlAssist

namespace Grammar

open TypeqlAssist.Tree

variable {eof : Nat} {inner : Symbol → List Token → Parsed} {ts us : List Tree}

/-! ## Every node -/

/-- All nodes of some trees satisfy `R`. -/
def AllNodes (R : Tree → Prop) (ts : List Tree) : Prop :=
  ∀ n ∈ preorderAll ts, R n

section

variable {R : Tree → Prop}

/-- Where there is no node, every node satisfies anything. -/
lemma AllNodes.nil : AllNodes R [] :=
  fun _ m => nomatch m

/-- The nodes of two rows of trees are those of the one and those of the other. -/
lemma AllNodes.append (h : AllNodes R ts) (g : AllNodes R us) : AllNodes R (ts ++ us) := by
  rw [AllNodes, preorderAll_append]
  exact List.forall_mem_append.mpr ⟨h, g⟩

/-- The nodes of leaves are the leaves. -/
lemma AllNodes.leaves (ts : List Token) (own : ∀ t, R (leaf t)) : AllNodes R (ts.map leaf) := by
  rw [AllNodes, preorderAll_leaves]
  exact List.forall_mem_map.mpr fun t _ => own t

/-- The nodes of a node are that node and those of its children. -/
lemma AllNodes.node {k : Kind} {a b : Nat} (h : AllNodes R ts) (own : R (node k a b ts)) :
    AllNodes R [node k a b ts] := by
  rw [AllNodes, preorderAll_cons, preorder_node, preorderAll_nil, List.append_nil]
  exact List.forall_mem_cons.mpr ⟨own, h⟩

/-- A node around trees satisfies what every node does if it does so wherever it stands. -/
lemma AllNodes.enclosed {k : Kind} {offset : Nat} {rest : List Token} (h : AllNodes R ts)
    (own : ∀ a b, R (Tree.node k a b ts)) : AllNodes R [enclosed eof k offset ts rest] := by
  obtain ⟨b, e⟩ := enclosed_eq eof k offset ts rest
  rw [e]
  exact h.node (own _ b)

end

/-! ## Nodes with children -/

/-- The kinds of the nodes with children satisfy `Q`. -/
def InnerKinds (Q : Kind → Prop) : List Tree → Prop :=
  AllNodes fun n => n.children ≠ [] → Q n.kind

variable {Q : Kind → Prop}

/-- A leaf has no children. -/
lemma InnerKinds.leaves (ts : List Token) : InnerKinds Q (ts.map leaf) :=
  AllNodes.leaves ts fun _ some => absurd rfl some

/-- The kind of a node around others is one more kind of a node with children. -/
lemma InnerKinds.enclosed {k : Kind} {offset : Nat} {rest : List Token} (hk : Q k)
    (h : InnerKinds Q ts) : InnerKinds Q [enclosed eof k offset ts rest] :=
  AllNodes.enclosed h fun _ _ _ => hk

/-- Every step of reading makes nodes of the right kinds. -/
lemma InnerKinds.kept (he : Q .error) : Kept eof Q fun _ a => InnerKinds Q a.nodes where
  nothing _ := .nil
  leaf t _ := .leaves [t]
  absent _ _ := .node .nil fun _ => he
  wrapped _ _ _ := .enclosed he (.leaves _)
  followedBy first second := first.append second
  enclosed hk inside := .enclosed hk inside

/-- A rule makes nodes with children of its own kinds, and errors. -/
theorem Rule.run_innerKinds (he : Q .error) (hi : ∀ s ts, InnerKinds Q (inner s ts).nodes)
    {r : Rule} (hk : ∀ k ∈ r.kinds, Q k) (ts : List Token) :
    InnerKinds Q (r.run eof inner ts).nodes :=
  Rule.run_kept (InnerKinds.kept he) hi hk ts

/-- A symbol makes nodes with children of the kinds of its rules, and errors. -/
lemma runSymbol_innerKinds {definition : Symbol → Rule} (he : Q .error)
    (hk : ∀ s, ∀ k ∈ (definition s).kinds, Q k) (levels : Nat) (s : Symbol) (ts : List Token) :
    InnerKinds Q (runSymbol definition eof levels s ts).nodes :=
  runSymbol_kept (InnerKinds.kept he) hk levels s ts

/-- The productions of the grammar have no kind of a token. -/
lemma isToken_kinds :
    (∀ k ∈ queries.kinds, k.isToken = false) ∧
    ∀ s, ∀ k ∈ (definitionOf s).kinds, k.isToken = false := by
  refine ⟨by decide +kernel, ?_⟩
  rintro (⟨⟨⟩⟩ | ⟨⟩) <;> decide +kernel

/-- No node with children in a document has the kind of a token. -/
theorem readDocument_innerKinds (eof : Nat) (ts : List Token) :
    InnerKinds (·.isToken = false) (readDocument eof ts).nodes := by
  have error : Kind.error.isToken = false := rfl
  have symbols (s : Symbol) (ts : List Token) :
      InnerKinds (·.isToken = false) (runSymbol definitionOf eof maxNesting s ts).nodes :=
    runSymbol_innerKinds error isToken_kinds.2 maxNesting s ts
  exact Rule.run_innerKinds error symbols isToken_kinds.1 ts

end Grammar

end TypeqlAssist

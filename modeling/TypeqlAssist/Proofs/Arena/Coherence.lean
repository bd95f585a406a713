import Mathlib.Logic.Relation
import TypeqlAssist.Proofs.Arena.Linking

/-!
# Coherence of linked arenas

In an arena whose links agree, the steps to parents and siblings are those that the lists of
children give, and every node is the child of one node at most (`Coherent`). So nothing is below two
siblings, and visiting comes by every node once.
-/

namespace TypeqlAssist

namespace Arena

variable {a : Arena} {n m c d : NodeId} {r : Record} {loose : List NodeId}

/-- The steps to parents and siblings agree with those to children. -/
structure Coherent (a : Arena) : Prop where
  below : ∀ n i c, a.child? n i = some (some c) → c < n ∧ c.toNat < a.size
  once : ∀ n m i j c, a.child? n i = some (some c) → a.child? m j = some (some c) → n = m ∧ i = j
  parent : ∀ n i c, a.child? n i = some (some c) → a.parent? c = some (some n)
  prev_first : ∀ n c, a.child? n 0 = some (some c) → a.prev? c = some none
  prev : ∀ n i c, a.child? n (i + 1) = some (some c) → a.prev? c = a.child? n i
  next : ∀ n i c, a.child? n i = some (some c) → a.next? c = a.child? n (i + 1)
  orphan : ∀ c, c.toNat < a.size → (∀ n i, a.child? n i ≠ some (some c)) → a.parent? c = some none

/-- The child of a node with an index is the one that its record has there. -/
lemma child?_eq {i : Nat} (hr : a.record? n = some r) : a.child? n i = some r.children[i]? := by
  rw [child?, hr]
  rfl

/-- In a linked arena, the steps to parents and siblings agree with those to children. -/
lemma Linked.coherent (h : Linked a loose) : Coherent a where
  below n i c hc := by
    obtain ⟨r, hr, hc⟩ := child?_eq_some_iff.mp hc
    have below := h.below hr (List.mem_of_getElem? hc)
    exact ⟨UInt32.lt_iff_toNat_lt.mpr below, Nat.lt_trans below (lt_size hr)⟩
  once n m i j c hi hj := by
    obtain ⟨r, hr, hi⟩ := child?_eq_some_iff.mp hi
    obtain ⟨r', hr', hj⟩ := child?_eq_some_iff.mp hj
    obtain ⟨q, hq, parent, index⟩ := h.child hr hi
    obtain ⟨q', hq', parent', index'⟩ := h.child hr' hj
    cases hq.symm.trans hq'
    exact ⟨Option.some.inj (parent.symm.trans parent'), index.symm.trans index'⟩
  parent n i c hc := by
    obtain ⟨r, hr, hc⟩ := child?_eq_some_iff.mp hc
    exact h.parent?_eq hr hc
  prev_first n c hc := by
    obtain ⟨r, hr, hc⟩ := child?_eq_some_iff.mp hc
    exact h.sibling?_eq hr hc _
  prev n i c hc := by
    obtain ⟨r, hr, hc⟩ := child?_eq_some_iff.mp hc
    rw [child?_eq hr]
    exact h.sibling?_eq hr hc _
  next n i c hc := by
    obtain ⟨r, hr, hc⟩ := child?_eq_some_iff.mp hc
    rw [child?_eq hr]
    exact h.sibling?_eq hr hc _
  orphan c lt nobody := by
    obtain ⟨q, hq⟩ := exists_record lt
    rw [parent?, hq]
    cases parent : q.parent with
    | none => exact congrArg some parent
    | some n =>
      obtain ⟨r, hr, mem⟩ := h.parent hq parent
      obtain ⟨i, hi⟩ := List.mem_iff_getElem?.mp mem
      exact absurd (child?_eq_some_iff.mpr ⟨r, hr, hi⟩) (nobody n i)

/-! ## What is below a node -/

/-- One node is a child of the other. -/
def HasChild (a : Arena) (n c : NodeId) : Prop :=
  ∃ i, a.child? n i = some (some c)

/-- Steps down to children lead from one node to the other, or there is no step to take. -/
def Reaches (a : Arena) : NodeId → NodeId → Prop :=
  Relation.ReflTransGen (HasChild a)

/-- No node is below both. -/
def Apart (a : Arena) (n m : NodeId) : Prop :=
  ∀ c, Reaches a n c → ¬ Reaches a m c

/-- A node in the list of children is a child. -/
lemma hasChild_of_mem (hr : a.record? n = some r) (hc : c ∈ r.children) : HasChild a n c := by
  obtain ⟨i, hi⟩ := List.mem_iff_getElem?.mp hc
  exact ⟨i, child?_eq_some_iff.mpr ⟨r, hr, hi⟩⟩

/-- A child is in the list of children. -/
lemma HasChild.mem (h : HasChild a n c) (hr : a.record? n = some r) : c ∈ r.children := by
  obtain ⟨i, hi⟩ := h
  rw [child?_eq hr] at hi
  exact List.mem_of_getElem? (Option.some.inj hi)

/-- No node is a child of two. -/
lemma Coherent.parent_unique (h : Coherent a) (hn : HasChild a n c) (hm : HasChild a m c) :
    n = m := by
  obtain ⟨i, hi⟩ := hn
  obtain ⟨j, hj⟩ := hm
  exact (h.once n m i j c hi hj).1

/-- The numbers do not grow on the way down. -/
lemma Coherent.le_of_reaches (h : Coherent a) (down : Reaches a n m) : m ≤ n := by
  induction down with
  | refl => exact UInt32.le_refl _
  | tail _ step ih =>
    obtain ⟨i, hi⟩ := step
    exact UInt32.le_trans (UInt32.le_of_lt (h.below _ i _ hi).1) ih

/-- A node is not below its own children. -/
lemma Coherent.not_reaches_parent (h : Coherent a) (hc : HasChild a n c) : ¬ Reaches a c n := by
  intro down
  obtain ⟨i, hi⟩ := hc
  exact UInt32.not_le.mpr (h.below n i c hi).1 (h.le_of_reaches down)

/-- A node is not below its siblings. -/
lemma Coherent.not_reaches_sibling (h : Coherent a) (hc : HasChild a n c) (hd : HasChild a n d)
    (ne : c ≠ d) : ¬ Reaches a c d := by
  intro down
  rcases Relation.ReflTransGen.cases_tail down with e | ⟨p, down, step⟩
  · exact ne e.symm
  · cases h.parent_unique step hd
    exact h.not_reaches_parent hc down

/-- Of two nodes above a third one, one is above the other. -/
lemma Coherent.total (h : Coherent a) (hn : Reaches a n c) (hm : Reaches a m c) :
    Reaches a n m ∨ Reaches a m n := by
  have unique : Relator.RightUnique (Function.swap (HasChild a)) :=
    fun _ _ _ hn hm => h.parent_unique hn hm
  rcases Relation.ReflTransGen.total_of_right_unique unique hn.swap hm.swap with down | down
  · exact .inr down.swap
  · exact .inl down.swap

/-- Nothing is below two different children of a node. -/
lemma Coherent.apart (h : Coherent a) (hc : HasChild a n c) (hd : HasChild a n d) (ne : c ≠ d) :
    Apart a c d := by
  intro m down down'
  rcases h.total down down' with down | down
  · exact h.not_reaches_sibling hc hd ne down
  · exact h.not_reaches_sibling hd hc ne.symm down

/-- The children of a node are all different, and nothing is below two of them. -/
lemma Coherent.children_apart (h : Coherent a) (hr : a.record? n = some r) :
    r.children.Pairwise (Apart a) := by
  refine List.pairwise_iff_getElem.mpr fun i j hi hj lt => ?_
  have at' (k : Nat) (hk : k < r.children.length) : a.child? n k = some (some r.children[k]) := by
    rw [child?_eq hr, List.getElem?_eq_getElem hk]
  refine h.apart ⟨i, at' i hi⟩ ⟨j, at' j hj⟩ fun e => ?_
  have same := (h.once n n i j _ (at' i hi) (e ▸ at' j hj)).2
  omega

/-- A node has no more children than there are nodes. -/
lemma Linked.length_children (h : Linked a loose) (hr : a.record? n = some r) :
    r.children.length ≤ a.size := by
  have nodup : r.children.Nodup := by
    refine (h.coherent.children_apart hr).imp ?_
    rintro c d apart rfl
    exact apart c .refl .refl
  refine length_le_of_nodup nodup fun c hc => ?_
  exact Nat.lt_trans (h.below hr hc) (lt_size hr)

/-! ## Visiting -/

/-- What is visited from nodes apart is all that is below them, and each node once. -/
lemma Coherent.visitWithin (h : Coherent a) {steps : Nat} {stack out : List NodeId}
    (visited : a.visitWithin steps stack = some out) (apart : stack.Pairwise (Apart a)) :
    out.Nodup ∧ ∀ m, m ∈ out ↔ ∃ n ∈ stack, Reaches a n m := by
  induction steps generalizing stack out with
  | zero =>
    cases stack with
    | nil =>
      cases visited
      exact ⟨.nil, by simp⟩
    | cons n rest => cases visited
  | succ steps ih =>
    cases stack with
    | nil =>
      cases visited
      exact ⟨.nil, by simp⟩
    | cons n rest =>
      obtain ⟨r, hr, visited⟩ := Option.bind_eq_some_iff.mp visited
      obtain ⟨below, further, e⟩ := Option.bind_eq_some_iff.mp visited
      cases e
      obtain ⟨first, apart⟩ := List.pairwise_cons.mp apart
      -- what is below a child is below the node, so it is apart from the rest of the stack
      have spread : (r.children ++ rest).Pairwise (Apart a) := by
        refine List.pairwise_append.mpr ⟨h.children_apart hr, apart, fun c hc m hm d down => ?_⟩
        exact first m hm d (.head (hasChild_of_mem hr hc) down)
      obtain ⟨nodup, reached⟩ := ih further spread
      refine ⟨List.nodup_cons.mpr ⟨fun mem => ?_, nodup⟩, fun m => ?_⟩
      · -- the node itself is not visited again
        obtain ⟨c, hc, down⟩ := (reached n).mp mem
        rcases List.mem_append.mp hc with hc | hc
        · exact h.not_reaches_parent (hasChild_of_mem hr hc) down
        · exact first c hc n .refl down
      · rw [List.mem_cons, reached]
        constructor
        · rintro (rfl | ⟨c, hc, down⟩)
          · exact ⟨m, .head _, .refl⟩
          · rcases List.mem_append.mp hc with hc | hc
            · exact ⟨n, .head _, .head (hasChild_of_mem hr hc) down⟩
            · exact ⟨c, .tail _ hc, down⟩
        · rintro ⟨c, hc, down⟩
          rcases List.mem_cons.mp hc with rfl | hc
          · rcases Relation.ReflTransGen.cases_head down with e | ⟨d, step, down⟩
            · exact .inl e.symm
            · exact .inr ⟨d, List.mem_append_left _ (step.mem hr), down⟩
          · exact .inr ⟨c, List.mem_append_right _ hc, down⟩

end Arena

end TypeqlAssist

import TypeqlAssist.Proofs.Document.Structure
import TypeqlAssist.Proofs.Grammar.Inner
import TypeqlAssist.Proofs.Tree.Cursor

/-!
# Cursors in documents

The tree of a text is laid out and has its punctuation at the leaves, so a cursor in a document is
resolved to the innermost node that it touches.
-/

namespace TypeqlAssist

open TypeqlAssist.Tree Grammar Location

/-- A node of the kind of a token has no children. -/
lemma children_of_isToken {text : Text} {n : Tree} (hn : n ∈ (parseTree text).preorder)
    (hk : n.kind.isToken = true) : n.children = [] := by
  by_contra hc
  have inner : InnerKinds (·.isToken = false) [parseTree text] :=
    .node (readDocument_innerKinds _ _) fun _ => rfl
  have other : n.kind.isToken = false := inner n (List.mem_append_left _ hn) hc
  rw [hk] at other
  cases other

/-- A punctuation mark is a token. -/
lemma isToken_of_isPunctuation {k : Kind} : k.isPunctuation = true → k.isToken = true := by
  cases k <;> decide

/-- The tree of a text is orderly. -/
lemma orderly_of_text (text : Text) :
    (ofRoot (parseTree text)).Orderly (text.isBoundary · = true) where
  laid := ((laid_of_text text).of_mem (.head _)).2.2.2.2
  leaves := fun _ hn punctuation => children_of_isToken hn (isToken_of_isPunctuation punctuation)

/-- A cursor behind the text counts as standing at its end. -/
lemma resolve_min (text : Text) (pos : Nat) :
    (parseTree text).resolve (min pos text.byteSize) = (parseTree text).resolve pos := by
  rw [resolve, resolve, show (parseTree text).stop = text.byteSize from rfl, Nat.min_assoc,
    Nat.min_self]

/-- The location at a cursor is reached from the root. -/
lemma reaches_resolve (text : Text) (pos : Nat) :
    Reaches (ofRoot (parseTree text)) ((parseTree text).resolve pos) :=
  (descends_descend _ [] (parseTree text)).reaches

/--
The nodes at a cursor are above each other, and the cursor is resolved to the one below all others,
or to the root if there is none.
-/
theorem resolve_innermost (text : Text) (pos : Nat) :
    (∀ l m : Location, l.IsAt (parseTree text) (min pos text.byteSize) →
      m.IsAt (parseTree text) (min pos text.byteSize) → Reaches l m ∨ Reaches m l) ∧
    (∀ l : Location, l.IsAt (parseTree text) (min pos text.byteSize) →
      Reaches l ((parseTree text).resolve pos)) ∧
    (((parseTree text).resolve pos).IsAt (parseTree text) (min pos text.byteSize) ∨
      (parseTree text).resolve pos = ofRoot (parseTree text) ∧
      ∀ l : Location, ¬ l.IsAt (parseTree text) (min pos text.byteSize)) := by
  obtain ⟨through, resolved⟩ := resolve_isAt (orderly_of_text text) pos
  refine ⟨?_, through, ?_⟩
  · intro l m hl hm
    exact (through l hl).total (through m hm)
  · rcases resolved with h | e
    · exact .inl h
    · refine .inr ⟨e, ?_⟩
      intro l hl
      have up := through l hl
      rw [e] at up
      exact hl.below up.eq_ofRoot

end TypeqlAssist

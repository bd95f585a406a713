import Mathlib.Data.List.Forall2
import TypeqlAssist.Completion.Result
import TypeqlAssist.Document
import TypeqlAssist.Proofs.Grammar.Recasting

/-!
# Cursors in recast trees

A cursor that stands behind the same offsets before and after a change of the tokens is resolved to
the same place of the tree. The nodes that are asked there are the same ones up to the change, and
so are the kinds that stand before the cursor (`contextsAt_recast`).
-/

namespace TypeqlAssist

open TypeqlAssist.Tree

/-- The cursors before and after a change stand behind the same offsets. -/
def Recast.Syncs (c : Recast) (p q : Nat) : Prop :=
  ∀ n, c.offset n < q ↔ n < p

variable {c : Recast} {p q : Nat}

/-- An offset is behind the cursor after the change if it was before. -/
lemma Recast.Syncs.le (h : c.Syncs p q) (n : Nat) : q ≤ c.offset n ↔ p ≤ n := by
  have lt := h n
  omega

namespace Tree

/-! ## Nodes -/

/-- The cursor touches a node after the change if it did before. -/
lemma touches_recast (h : c.Syncs p q) (t : Tree) : (t.recast c).touches q = t.touches p := by
  have punctuation := (c.recasts t.start t.kind).apply_eq (f := Kind.isPunctuation) rfl
  simp only [touches, start_recast, stop_recast, kind_recast, punctuation, h t.start, h.le t.stop]

/-- The child before the cursor is the same one after the change. -/
lemma childBefore?_recast (h : c.Syncs p q) (t : Tree) :
    (t.recast c).childBefore? q = (t.childBefore? p).map (recast c) := by
  rw [childBefore?, childBefore?, children_recast, ← List.map_reverse, List.find?_map]
  simp only [Function.comp_def, start_recast, h _]

section

variable {R : Kind → Kind → Prop} (hR : ∀ a k, R k (c.kind a k))
include hR

/-- The kinds of some trees are related to those after the change. -/
lemma forall₂_kind_recast (ts : List Tree) :
    List.Forall₂ R (ts.map kind) ((ts.map (recast c)).map kind) := by
  rw [List.map_map, List.forall₂_map_left_iff, List.forall₂_map_right_iff, List.forall₂_same]
  intro t _
  rw [Function.comp_apply, kind_recast]
  exact hR t.start t.kind

/-- What stands before the cursor stands there after the change. -/
lemma kindsUpTo_recast (h : c.Syncs p q) (t : Tree) :
    List.Forall₂ R (t.kindsUpTo p) ((t.recast c).kindsUpTo q) := by
  have error := (c.recasts t.start t.kind).apply_eq (f := Kind.isError) rfl
  rw [kindsUpTo, kindsUpTo, kind_recast, error]
  split
  · exact .nil
  · rw [children_recast, ← List.map_reverse, List.dropWhile_map, ← List.map_reverse]
    simp only [Function.comp_def, start_recast, h.le]
    exact forall₂_kind_recast hR _

end

/-! ## Locations -/

/-- A step up after the change. -/
def Step.recast (c : Recast) (s : Step) : Step :=
  ⟨s.parent.recast c, s.index⟩

/-- A location after the change. -/
def Location.recast (c : Recast) (l : Location) : Location :=
  ⟨l.focus.recast c, l.path.map (Step.recast c)⟩

mutual

/-- The way down to the cursor is the same after the change. -/
lemma descend_recast (h : c.Syncs p q) (path : List Step) :
    ∀ t : Tree, descend q (path.map (Step.recast c)) (t.recast c) = (descend p path t).recast c
  | node k a b cs => by
    have error := (c.recasts a k).apply_eq (f := Kind.isError) rfl
    have below := descendLast_recast h (node k a b cs) path 0 cs
    rw [recast_node] at below ⊢
    rw [descend, descend, error, below]
    split
    · rw [Location.recast, recast_node]
    · cases descendLast p (node k a b cs) path 0 cs with
      | none => rw [Location.recast, Option.getD_none, recast_node]; rfl
      | some l => rfl

/-- The child that is entered is the same after the change. -/
lemma descendLast_recast (h : c.Syncs p q) (parent : Tree) (path : List Step) (index : Nat) :
    ∀ ts : List Tree,
      descendLast q (parent.recast c) (path.map (Step.recast c)) index (ts.map (recast c)) =
        (descendLast p parent path index ts).map (Location.recast c)
  | [] => rfl
  | t :: ts => by
    have later := descendLast_recast h parent path (index + 1) ts
    have first := descend_recast h (⟨parent, index⟩ :: path) t
    rw [List.map_cons, descendLast, descendLast, later, touches_recast h]
    cases descendLast p parent path (index + 1) ts with
    | some l => rfl
    | none =>
      simp only [Option.map_none]
      split
      · exact congrArg some first
      · rfl

end

end Tree

/-! ## Documents -/

/-- A text with changed tokens has the tree after the change. -/
theorem parseTree_recast {text text' : Text} (zero : c.offset 0 = 0)
    (size : text'.byteSize = c.offset text.byteSize)
    (tokens : tokenize text' = (tokenize text).map c.token) :
    parseTree text' = (parseTree text).recast c := by
  change node .source 0 _ (Grammar.readDocument _ _).nodes =
    (node .source 0 _ (Grammar.readDocument _ _).nodes).recast c
  rw [size, tokens, Grammar.readDocument_recast, recast_node, zero, c.kind_of_ne (by decide)]
  rfl

/-- In a tree after the change, a cursor is resolved as before. -/
lemma Tree.resolve_recast {root : Tree} (h : c.Syncs p q) (hp : p ≤ root.stop)
    (hq : q ≤ c.offset root.stop) : (root.recast c).resolve q = (root.resolve p).recast c := by
  rw [resolve, resolve, stop_recast, Nat.min_eq_left hp, Nat.min_eq_left hq]
  exact descend_recast h [] root

namespace Completion

/-! ## Contexts -/

/-- A node that is asked after the change, and what stands before the cursor there. -/
structure Context.Recasts (c : Recast) (x y : Context) : Prop where
  node : y.node = x.node.recast c
  preceding : List.Forall₂ Kind.Recasts x.preceding y.preceding

/-- Each kind before the cursor is changed as any kind is that starts somewhere. -/
lemma contextsAlong_forall₂ {R : Kind → Kind → Prop} (hR : ∀ a k, R k (c.kind a k)) (t : Tree)
    {preceding preceding' : List Kind} (h : List.Forall₂ R preceding preceding')
    (path : List Step) :
    List.Forall₂ (fun x y => y.node = x.node.recast c ∧ List.Forall₂ R x.preceding y.preceding)
      (contextsAlong t preceding path)
      (contextsAlong (t.recast c) preceding' (path.map (Step.recast c))) := by
  induction path generalizing t preceding preceding' with
  | nil => exact .cons ⟨rfl, h⟩ .nil
  | cons s path ih =>
    refine .cons ⟨rfl, h⟩ (ih s.parent ?_)
    simp only [Step.recast, children_recast, ← List.map_take]
    exact List.rel_append (forall₂_kind_recast hR _) h

/-- At a cursor, the same nodes are asked after the change. -/
theorem contextsAt_forall₂ {R : Kind → Kind → Prop} (hR : ∀ a k, R k (c.kind a k))
    (h : c.Syncs p q) (l : Location) :
    List.Forall₂ (fun x y => y.node = x.node.recast c ∧ List.Forall₂ R x.preceding y.preceding)
      (contextsAt l p) (contextsAt (l.recast c) q) :=
  contextsAlong_forall₂ hR l.focus (kindsUpTo_recast hR h l.focus) l.path

/-- The contexts at a cursor are the same up to the change. -/
theorem contextsAt_recast (h : c.Syncs p q) (l : Location) :
    List.Forall₂ (Context.Recasts c) (contextsAt l p) (contextsAt (l.recast c) q) :=
  (contextsAt_forall₂ c.recasts h l).imp fun _ _ changed => ⟨changed.1, changed.2⟩

end Completion

end TypeqlAssist

import Mathlib.Data.List.Chain
import TypeqlAssist.Tree.Basic

/-!
# The layout of trees

The nodes of a tree in document order, and the relation `Laid` on the trees that stand between two
offsets: siblings follow each other without overlap, and children stay within their parent.
-/

namespace TypeqlAssist

namespace Tree

/-! ## Nodes in document order -/

/-- Below no tree, there is no node. -/
@[simp]
lemma preorderAll_nil : preorderAll [] = [] := rfl

/-- The nodes of a row are those of the first tree and those of the rest. -/
@[simp]
lemma preorderAll_cons (t : Tree) (ts : List Tree) :
    preorderAll (t :: ts) = t.preorder ++ preorderAll ts := rfl

/-- The nodes of a tree are its root and those of its children. -/
@[simp]
lemma preorder_node (k : Kind) (a b : Nat) (cs : List Tree) :
    (node k a b cs).preorder = node k a b cs :: preorderAll cs := rfl

/-- The nodes of two rows of trees follow each other. -/
@[simp]
lemma preorderAll_append (ts us : List Tree) :
    preorderAll (ts ++ us) = preorderAll ts ++ preorderAll us := by
  induction ts with
  | nil => rfl
  | cons t ts ih => rw [List.cons_append, preorderAll_cons, ih, preorderAll_cons, List.append_assoc]

mutual

/-- A tree has as many nodes as its size says. -/
lemma length_preorder : ∀ t : Tree, t.preorder.length = t.size
  | node k a b cs => by
    rw [preorder_node, List.length_cons, length_preorderAll cs, size]

/-- A row has as many nodes as its size says. -/
lemma length_preorderAll : ∀ ts : List Tree, (preorderAll ts).length = sizeAll ts
  | [] => rfl
  | t :: ts => by
    rw [preorderAll_cons, List.length_append, length_preorder t, length_preorderAll ts, sizeAll]

end

/-- The size of two rows is that of the one and that of the other. -/
lemma sizeAll_append (ts us : List Tree) : sizeAll (ts ++ us) = sizeAll ts + sizeAll us := by
  rw [← length_preorderAll, preorderAll_append, List.length_append, length_preorderAll,
    length_preorderAll]

/-- The nodes of leaves are the leaves. -/
lemma preorderAll_leaves (ts : List Token) : preorderAll (ts.map leaf) = ts.map leaf := by
  induction ts with
  | nil => rfl
  | cons t ts ih => rw [List.map_cons, preorderAll_cons, ih]; rfl

/-- A node of some trees is a node of one of them. -/
lemma mem_preorderAll {n : Tree} {ts : List Tree} (h : n ∈ preorderAll ts) :
    ∃ t ∈ ts, n ∈ t.preorder := by
  induction ts with
  | nil => cases h
  | cons t ts ih =>
    rcases List.mem_append.mp h with h | h
    · exact ⟨t, .head ts, h⟩
    · obtain ⟨u, hu, h⟩ := ih h
      exact ⟨u, .tail t hu, h⟩

/-- The nodes of a tree of some trees are nodes of the trees. -/
lemma mem_preorderAll_of_mem {n t : Tree} {ts : List Tree} (ht : t ∈ ts)
    (h : n ∈ t.preorder) : n ∈ preorderAll ts := by
  induction ht with
  | head => exact List.mem_append_left _ h
  | tail _ _ ih => exact List.mem_append_right _ ih

/-! ## Trees between two offsets -/

/--
Trees that stand in order between two offsets. Each has ends that satisfy `P`, and its children
stand between these ends in the same way.
-/
inductive Laid (P : Nat → Prop) : Nat → List Tree → Nat → Prop where
  | nil {lo hi} :
    lo ≤ hi →
    Laid P lo [] hi
  | cons {lo hi k a b cs ts} :
    lo ≤ a →
    P a →
    P b →
    Laid P a cs b →
    Laid P b ts hi →
    Laid P lo (node k a b cs :: ts) hi

variable {P : Nat → Prop} {lo mid hi : Nat} {ts us : List Tree}

/-- A row is laid out from an offset to a later one, or to itself. -/
lemma Laid.le (h : Laid P lo ts hi) : lo ≤ hi := by
  induction h with
  | nil le => exact le
  | cons le _ _ _ _ ihc iht => omega

/-- There may be more space in front and behind. -/
lemma Laid.mono {lo' hi' : Nat} (h : Laid P lo ts hi) (hlo : lo' ≤ lo) (hhi : hi ≤ hi') :
    Laid P lo' ts hi' := by
  induction h generalizing lo' with
  | nil le => exact .nil (by omega)
  | cons le pa pb cs _ _ iht => exact .cons (by omega) pa pb cs (iht (Nat.le_refl _) hhi)

/-- Rows that are laid out one behind the other are laid out together. -/
lemma Laid.append (h : Laid P lo ts mid) (g : Laid P mid us hi) : Laid P lo (ts ++ us) hi := by
  induction h with
  | nil le => exact g.mono le (Nat.le_refl _)
  | cons le pa pb cs _ _ iht => exact .cons le pa pb cs (iht g)

/-- Where the last of some trees stops, or an offset where there is none. -/
def lastStop (default : Nat) (ts : List Tree) : Nat :=
  (ts.getLast?.map stop).getD default

/-- The first tree only decides if it is the last one, too. -/
lemma lastStop_cons (n : Nat) (t : Tree) (ts : List Tree) :
    lastStop n (t :: ts) = lastStop t.stop ts := by
  rw [lastStop, lastStop, List.getLast?_cons]
  cases ts.getLast? <;> rfl

/-- Trees in a space fill it from its start to the stop of the last one. -/
lemma Laid.tight (h : Laid P lo ts hi) :
    Laid P lo ts (lastStop lo ts) ∧ lastStop lo ts ≤ hi ∧ (P lo → P (lastStop lo ts)) := by
  induction h with
  | nil le => exact ⟨.nil (Nat.le_refl _), le, fun p => p⟩
  | cons le pa pb cs _ _ iht =>
    obtain ⟨laid, stop, p⟩ := iht
    rw [lastStop_cons, stop_node]
    exact ⟨.cons le pa pb cs laid, stop, fun _ => p pb⟩

/-- A node over trees that fill a space, which may reach to the end of the space, fills it, too. -/
lemma Laid.enclose {k : Kind} {extent : Option Nat} (h : Laid P lo ts hi) (plo : P lo)
    (hx : ∀ e ∈ extent, e = hi ∧ P hi) : Laid P lo [enclose k lo ts extent] hi := by
  -- the space of the node itself, from its first child on
  have inner : ∃ first, lo ≤ first ∧ (ts.head?.map start).getD lo = first ∧
      Laid P first ts (lastStop first ts) ∧ lastStop first ts ≤ hi ∧
      P first ∧ P (lastStop first ts) := by
    cases h with
    | nil le => exact ⟨lo, Nat.le_refl _, rfl, .nil (Nat.le_refl _), le, plo, plo⟩
    | @cons _ _ k a b cs ts le pa pb hcs hts =>
      obtain ⟨laid, stop, p⟩ := (Laid.cons (k := k) (Nat.le_refl a) pa pb hcs hts).tight
      exact ⟨a, le, rfl, laid, stop, pa, p pa⟩
  obtain ⟨first, le, e, laid, stop, pfirst, plast⟩ := inner
  unfold Tree.enclose
  simp only [e]
  change Laid P lo [node k first (max (lastStop first ts) (extent.getD (lastStop first ts))) ts] hi
  cases extent with
  | none =>
    rw [Option.getD_none, Nat.max_self]
    exact .cons le pfirst plast laid (.nil stop)
  | some e =>
    obtain ⟨rfl, phi⟩ := hx e rfl
    rw [Option.getD_some, Nat.max_eq_right stop]
    exact .cons le pfirst phi (laid.mono (Nat.le_refl _) stop) (.nil (Nat.le_refl _))

/-- Every tree of a row stays within its space, and its children within it. -/
lemma Laid.of_mem {t : Tree} (h : Laid P lo ts hi) (m : t ∈ ts) :
    lo ≤ t.start ∧ t.stop ≤ hi ∧ P t.start ∧ P t.stop ∧ Laid P t.start t.children t.stop := by
  induction h with
  | nil => cases m
  | cons le pa pb cs rest _ iht =>
    have order := cs.le
    cases m with
    | head => exact ⟨le, rest.le, pa, pb, cs⟩
    | tail _ m =>
      obtain ⟨le', h⟩ := iht m
      exact ⟨by omega, h⟩

/-- Every node of a row of trees stays within its space, and its children within it. -/
lemma Laid.of_mem_preorder {n : Tree} (h : Laid P lo ts hi) (m : n ∈ preorderAll ts) :
    lo ≤ n.start ∧ n.stop ≤ hi ∧ P n.start ∧ P n.stop ∧ Laid P n.start n.children n.stop := by
  induction h with
  | nil => cases m
  | cons le pa pb cs rest ihc iht =>
    have order := cs.le
    have order' := rest.le
    rw [preorderAll_cons, preorder_node, List.cons_append, List.mem_cons, List.mem_append] at m
    rcases m with rfl | m | m
    · exact ⟨le, order', pa, pb, cs⟩
    · obtain ⟨le', le'', h⟩ := ihc m
      exact ⟨by omega, by omega, h⟩
    · obtain ⟨le', h⟩ := iht m
      exact ⟨by omega, h⟩

/-- No two trees of a row overlap. -/
lemma Laid.pairwise (h : Laid P lo ts hi) : ts.Pairwise fun l r => l.stop ≤ r.start := by
  induction h with
  | nil => exact .nil
  | cons _ _ _ _ rest _ iht => exact .cons (fun t m => (rest.of_mem m).1) iht

/-- Neighbours do not overlap. -/
lemma Laid.isChain (h : Laid P lo ts hi) : ts.IsChain fun l r => l.stop ≤ r.start :=
  h.pairwise.isChain

end Tree

end TypeqlAssist

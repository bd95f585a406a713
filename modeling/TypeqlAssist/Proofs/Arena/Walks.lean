import Mathlib.Data.List.TakeWhile
import TypeqlAssist.Proofs.Arena.Coherence
import TypeqlAssist.Proofs.Arena.Storage
import TypeqlAssist.Proofs.Tree.Layout

/-!
# Walks along links

`Stands` pairs the nodes below one of an arena with the locations in the tree that it holds. Every
walk along the links ends, and it finds what the walk in the tree finds: going down leads to smaller
numbers, going up to larger ones, and going back among siblings to smaller indices.
-/

namespace TypeqlAssist

namespace Tree

variable {pos : Nat} {parent t c : Tree} {path : List Step} {ts us : List Tree}

/-- No child is entered if the cursor touches none. -/
lemma descendLast_of_untouched (index : Nat) (h : ∀ u ∈ us, u.touches pos = false) :
    descendLast pos parent path index us = none := by
  induction us generalizing index with
  | nil => rfl
  | cons u us ih =>
    obtain ⟨first, rest⟩ := List.forall_mem_cons.mp h
    rw [descendLast, ih (index + 1) rest, first]
    rfl

/-- The last child that the cursor touches is the one that is entered. -/
lemma descendLast_append (index : Nat) (touched : t.touches pos = true)
    (after : ∀ u ∈ us, u.touches pos = false) :
    descendLast pos parent path index (ts ++ t :: us) =
      some (descend pos (⟨parent, index + ts.length⟩ :: path) t) := by
  induction ts generalizing index with
  | nil =>
    rw [List.nil_append, descendLast, descendLast_of_untouched (index + 1) after, touched]
    rfl
  | cons u ts ih =>
    rw [List.cons_append, descendLast, ih (index + 1), List.length_cons, Nat.add_assoc,
      Nat.add_comm 1]

/-- The way down stops at an error, and else enters the last child it can. -/
lemma descend_eq : descend pos path t =
    if t.kind.isError then ⟨t, path⟩
    else (descendLast pos t path 0 t.children).getD ⟨t, path⟩ := by
  cases t
  rw [descend]
  rfl

/-- The way down ends at a node with no child that the cursor touches. -/
lemma descend_of_untouched (h : ∀ u ∈ t.children, u.touches pos = false) :
    descend pos path t = ⟨t, path⟩ := by
  rw [descend_eq, descendLast_of_untouched 0 h]
  exact ite_self _

/-- The way down goes on in the last child that the cursor touches. -/
lemma descend_of_last (fine : t.kind.isError = false) (split : t.children = ts ++ c :: us)
    (touched : c.touches pos = true) (after : ∀ u ∈ us, u.touches pos = false) :
    descend pos path t = descend pos (⟨t, ts.length⟩ :: path) c := by
  rw [descend_eq, if_neg (Bool.eq_false_iff.mp fine), split, descendLast_append 0 touched after,
    Nat.zero_add]
  rfl

/-- No kind stands before a cursor that no child starts before. -/
lemma kindsUpTo_of_untouched (h : ∀ u ∈ t.children, pos ≤ u.start) : t.kindsUpTo pos = [] := by
  have dropped : ∀ u ∈ t.children.reverse, decide (pos ≤ u.start) = true :=
    fun u hu => decide_eq_true (h u (List.mem_reverse.mp hu))
  rw [kindsUpTo, List.dropWhile_eq_nil_iff.mpr dropped]
  exact ite_self _

/-- The kinds before a cursor are those up to the last child that starts before it. -/
lemma kindsUpTo_of_last (fine : t.kind.isError = false) (split : t.children = ts ++ c :: us)
    (before : c.start < pos) (after : ∀ u ∈ us, pos ≤ u.start) :
    t.kindsUpTo pos = ts.map kind ++ [c.kind] := by
  have dropped : ∀ u ∈ us.reverse, decide (pos ≤ u.start) = true :=
    fun u hu => decide_eq_true (after u (List.mem_reverse.mp hu))
  have kept : decide (pos ≤ c.start) = false := decide_eq_false (Nat.not_le.mpr before)
  rw [kindsUpTo, fine, split, List.reverse_append, List.reverse_cons, List.append_assoc,
    List.dropWhile_append_of_pos dropped, List.singleton_append,
    List.dropWhile_cons_of_neg (by rw [kept]; decide)]
  simp

end Tree

namespace Arena

open TypeqlAssist.Tree (Location cut preorderAll sizeAll)

variable {a : Arena} {id n c top : NodeId} {r : Record} {cs ids loose : List NodeId}
  {root t : Tree} {ts : List Tree} {l : Location} {pos : Nat}

/-! ## The last child that passes a test -/

/-- The first child that passes is that of the first tree that does. -/
lemma findM?_cases (test : Record → Bool) (test' : Tree → Bool)
    (same : ∀ r us, test' (Record.node r us) = test r) (children : List.Forall₂ a.Holds cs ts) :
    (cs.findM? (fun c => do return test (← a.record? c)) = some none ∧
      ∀ t ∈ ts, test' t = false) ∨
    ∃ cs₁ c cs₂ ts₁ t ts₂, cs.findM? (fun c => do return test (← a.record? c)) = some (some c) ∧
      cs = cs₁ ++ c :: cs₂ ∧ ts = ts₁ ++ t :: ts₂ ∧ cs₂.length = ts₂.length ∧
      test' t = true ∧ ∀ u ∈ ts₁, test' u = false := by
  induction children with
  | nil => exact .inl ⟨rfl, nofun⟩
  | @cons c t cs ts held rest ih =>
    obtain ⟨r, hr, node, _⟩ := held.record
    have first : test' t = test r := by
      rw [← node]
      exact same r _
    cases passed : test r with
    | true =>
      refine .inr ⟨[], c, cs, [], t, ts, ?_, rfl, rfl, rest.length_eq, first.trans passed, nofun⟩
      simp [List.findM?, hr, passed]
    | false =>
      have skip : (c :: cs).findM? (fun c => do return test (← a.record? c)) =
          cs.findM? fun c => do return test (← a.record? c) := by
        simp [List.findM?, hr, passed]
      rw [skip]
      have failed := first.trans passed
      rcases ih with ⟨found, fail⟩ | ⟨cs₁, d, cs₂, ts₁, u, ts₂, found, rfl, rfl, same, h, fail⟩
      · exact .inl ⟨found, List.forall_mem_cons.mpr ⟨failed, fail⟩⟩
      · exact .inr ⟨c :: cs₁, d, cs₂, t :: ts₁, u, ts₂, found, rfl, rfl, same, h,
          List.forall_mem_cons.mpr ⟨failed, fail⟩⟩

/-- The last child that passes is that of the last tree that does, and they have one index. -/
lemma lastWith?_cases (test : Record → Bool) (test' : Tree → Bool)
    (same : ∀ r us, test' (Record.node r us) = test r) (hr : a.record? id = some r)
    (children : List.Forall₂ a.Holds r.children ts) :
    (a.lastWith? id test = some none ∧ ∀ t ∈ ts, test' t = false) ∨
    ∃ c ts₁ t ts₂, a.lastWith? id test = some (some c) ∧
      r.children[ts₁.length]? = some c ∧ ts = ts₁ ++ t :: ts₂ ∧
      test' t = true ∧ ∀ u ∈ ts₂, test' u = false := by
  have look : a.lastWith? id test =
      r.children.reverse.findM? fun c => do return test (← a.record? c) := by
    rw [lastWith?, hr]
    rfl
  rw [look]
  rcases findM?_cases test test' same (List.rel_reverse children) with
    ⟨found, fail⟩ | ⟨cs₁, c, cs₂, ts₁, t, ts₂, found, split, split', lengths, h, fail⟩
  · exact .inl ⟨found, fun t ht => fail t (List.mem_reverse.mpr ht)⟩
  · refine .inr ⟨c, ts₂.reverse, t, ts₁.reverse, found, ?_, ?_, h,
      fun u hu => fail u (List.mem_reverse.mp hu)⟩
    · rw [← List.reverse_reverse r.children, split]
      simp [← lengths]
    · rw [← List.reverse_reverse ts, split']
      simp

/-! ## Nodes and locations -/

/-- The node and the location are reached from a top node and from the root by the same steps. -/
inductive Stands (a : Arena) (top : NodeId) (root : Tree) : NodeId → Location → Prop where
  | top : Stands a top root top (.ofRoot root)
  | child {id c : NodeId} {r : Record} {i : Nat} {l : Location} {t : Tree} :
    Stands a top root id l →
    a.record? id = some r →
    r.children[i]? = some c →
    l.focus.children[i]? = some t →
    Stands a top root c ⟨t, ⟨l.focus, i⟩ :: l.path⟩

/-- A node that is paired with a location holds the tree there. -/
lemma Stands.holds (h : Stands a top root id l) (held : a.Holds top root) :
    a.Holds id l.focus := by
  induction h with
  | top => exact held
  | @child id c r i l t _ hr hc ht ih =>
    obtain ⟨r', hr', _, children⟩ := ih.record
    cases hr.symm.trans hr'
    rcases forall₂_getElem? children i with ⟨absent, _⟩ | ⟨c', t', hc', ht', held⟩
    · cases hc.symm.trans absent
    · cases hc.symm.trans hc'
      cases ht.symm.trans ht'
      exact held

/-! ## Down to a cursor -/

/-- The way down to a cursor ends where it ends in the tree. -/
lemma Stands.descendWithin {steps : Nat} (h : Stands a top root id l) (held : a.Holds top root)
    (linked : Linked a loose) (pos : Nat) (enough : id.toNat < steps) :
    ∃ id', a.descendWithin pos steps id = some id' ∧
      Stands a top root id' (Tree.descend pos l.path l.focus) := by
  induction steps generalizing id l with
  | zero => cases enough
  | succ steps ih =>
    obtain ⟨r, hr, node, children⟩ := (h.holds held).record
    have kind := Record.kind_eq node
    rw [Arena.descendWithin, hr]
    cases error : r.kind.isError with
    | true =>
      refine ⟨id, by simp [error], ?_⟩
      rw [Tree.descend_eq, if_pos (kind ▸ error)]
      exact h
    | false =>
      rcases lastWith?_cases (fun c => (c.node []).touches pos) (·.touches pos) (fun _ _ => rfl) hr
        children with ⟨found, fail⟩ | ⟨c, ts₁, t, ts₂, found, hc, split, touched, fail⟩
      · refine ⟨id, by simp [found], ?_⟩
        rw [Tree.descend_of_untouched fail]
        exact h
      · have below := linked.below hr (List.mem_of_getElem? hc)
        have ht : l.focus.children[ts₁.length]? = some t := by simp [split]
        obtain ⟨id', down, stands⟩ := ih (h.child hr hc ht) (by omega)
        refine ⟨id', by simpa [error, found] using down, ?_⟩
        rw [Tree.descend_of_last (kind ▸ error) split touched fail]
        exact stands

/-! ## Back among siblings -/

/-- The way back from a child leads through all children before it. -/
lemma Linked.kindsBeforeWithin {steps i : Nat} (linked : Linked a loose)
    (hr : a.record? n = some r) (children : List.Forall₂ a.Holds r.children ts)
    (hc : r.children[i]? = some c) (enough : i < steps) :
    a.kindsBeforeWithin steps c = some ((ts.take i).map Tree.kind) := by
  induction steps generalizing i c with
  | zero => cases enough
  | succ steps ih =>
    cases i with
    | zero =>
      have prev : a.prev? c = some none := linked.sibling?_eq hr hc _
      rw [Arena.kindsBeforeWithin, prev]
      rfl
    | succ i =>
      have prev : a.prev? c = some r.children[i]? := linked.sibling?_eq hr hc _
      obtain ⟨lt, _⟩ := List.getElem?_eq_some_iff.mp hc
      rcases forall₂_getElem? children i with ⟨absent, _⟩ | ⟨d, t, hd, ht, held⟩
      · have le := List.getElem?_eq_none_iff.mp absent
        omega
      · obtain ⟨q, hq, node, _⟩ := held.record
        rw [Arena.kindsBeforeWithin, prev, hd]
        simp [ih hd (by omega), hq, Record.kind_eq node, List.take_add_one, ht]

/-- The kinds before a child are those of the trees before its own. -/
lemma Linked.kindsBefore {i : Nat} (linked : Linked a loose) (hr : a.record? n = some r)
    (children : List.Forall₂ a.Holds r.children ts) (hc : r.children[i]? = some c) :
    a.kindsBefore c = some ((ts.take i).map Tree.kind) := by
  have few := linked.length_children hr
  obtain ⟨lt, _⟩ := List.getElem?_eq_some_iff.mp hc
  exact linked.kindsBeforeWithin hr children hc (by omega)

/-- Nothing stands before a node that has no parent. -/
lemma kindsBefore_of_free {q : Record} (hc : a.record? c = some q) (free : q.parent = none) :
    a.kindsBefore c = some [] := by
  have prev : a.prev? c = some none := sibling?_of_free hc free _
  obtain ⟨steps, size⟩ := Nat.exists_eq_add_one_of_ne_zero (Nat.ne_zero_of_lt (lt_size hc))
  rw [Arena.kindsBefore, size, kindsBeforeWithin, prev]
  rfl

/-- The kinds before a cursor in a node are those in the tree it holds. -/
lemma Stands.kindsUpTo (h : Stands a top root id l) (held : a.Holds top root)
    (linked : Linked a loose) (pos : Nat) :
    a.kindsUpTo id pos = some (l.focus.kindsUpTo pos) := by
  obtain ⟨r, hr, node, children⟩ := (h.holds held).record
  have kind := Record.kind_eq node
  rw [Arena.kindsUpTo, hr]
  cases error : r.kind.isError with
  | true => simp [error, Tree.kindsUpTo, kind]
  | false =>
    rcases lastWith?_cases (·.start < pos) (·.start < pos) (fun _ _ => rfl) hr children with
      ⟨found, fail⟩ | ⟨c, ts₁, t, ts₂, found, hc, split, before, fail⟩
    · rw [Tree.kindsUpTo_of_untouched fun u hu => Nat.not_lt.mp (of_decide_eq_false (fail u hu))]
      simp [found]
    · have ht : l.focus.children[ts₁.length]? = some t := by simp [split]
      obtain ⟨q, hq, node', _⟩ := ((h.child hr hc ht).holds held).record
      have kind' : t.kind = q.kind := Record.kind_eq node'
      rw [Tree.kindsUpTo_of_last (kind ▸ error) split (of_decide_eq_true before)
        fun u hu => Nat.not_lt.mp (of_decide_eq_false (fail u hu))]
      simp [error, found, linked.kindsBefore hr children hc, split, hq, kind']

/-! ## Up to the root -/

/-- What a step up from a node finds: nothing above the top, and else the kinds before the node. -/
lemma Stands.up (h : Stands a top root id l) (held : a.Holds top root) (linked : Linked a [top]) :
    (l.path = [] ∧ a.parent? id = some none ∧ a.kindsBefore id = some []) ∨
    ∃ p m i, Stands a top root p m ∧ l.path = ⟨m.focus, i⟩ :: m.path ∧
      a.parent? id = some (some p) ∧
      a.kindsBefore id = some ((m.focus.children.take i).map Tree.kind) := by
  cases h with
  | top =>
    obtain ⟨q, hq, free⟩ := linked.free _ (.head _)
    refine .inl ⟨rfl, ?_, kindsBefore_of_free hq free⟩
    rw [parent?, hq, ← free]
    rfl
  | @child p c r i m t above hr hc ht =>
    obtain ⟨r', hr', _, children⟩ := (above.holds held).record
    cases hr.symm.trans hr'
    exact .inr ⟨p, m, i, above, rfl, linked.parent?_eq hr hc, linked.kindsBefore hr children hc⟩

/-- Every step down leads to a smaller number. -/
lemma Stands.path_le (h : Stands a top root id l) (linked : Linked a loose) :
    id.toNat + l.path.length ≤ top.toNat := by
  induction h with
  | top => exact Nat.le_refl _
  | child _ hr hc _ ih =>
    have below := linked.below hr (List.mem_of_getElem? hc)
    rw [List.length_cons]
    omega

/-- Every step up leads to a larger number, so going up ends. -/
lemma Linked.exists_ancestorsWithin {steps : Nat} (h : Linked a loose) (lt : n.toNat < a.size)
    (enough : a.size ≤ n.toNat + steps) : ∃ ids, a.ancestorsWithin steps n = some ids := by
  induction steps generalizing n with
  | zero => omega
  | succ steps ih =>
    obtain ⟨q, hq⟩ := exists_record lt
    have parent : a.parent? n = some q.parent := by
      rw [parent?, hq]
      rfl
    rw [ancestorsWithin, parent]
    cases e : q.parent with
    | none => exact ⟨[], rfl⟩
    | some p =>
      obtain ⟨r, hr, mem⟩ := h.parent hq e
      have larger := h.below hr mem
      obtain ⟨ids, up⟩ := ih (lt_size hr) (by omega)
      exact ⟨p :: ids, by simp [up]⟩

/-! ## In document order -/

/-- Visiting nodes ends, and they hold the trees visited in the same order. -/
lemma exists_visitWithin (steps : Nat) (held : List.Forall₂ a.Holds ids ts)
    (enough : sizeAll ts ≤ steps) :
    ∃ out, a.visitWithin steps ids = some out ∧ List.Forall₂ a.Holds out (preorderAll ts) := by
  induction steps generalizing ids ts with
  | zero =>
    cases held with
    | nil => exact ⟨[], rfl, .nil⟩
    | @cons id t ids ts first rest =>
      obtain ⟨k, x, y, us⟩ := t
      rw [sizeAll, Tree.size] at enough
      omega
  | succ steps ih =>
    cases held with
    | nil => exact ⟨[], rfl, .nil⟩
    | @cons id t ids ts first rest =>
      obtain ⟨r, hr, node, children⟩ := first.record
      obtain ⟨k, x, y, us⟩ := t
      -- the children take the place of the node on the stack, so one tree node less is left
      have less : sizeAll (us ++ ts) ≤ steps := by
        rw [sizeAll, Tree.size] at enough
        rw [Tree.sizeAll_append]
        omega
      obtain ⟨out, visited, below⟩ := ih (List.rel_append children rest) less
      refine ⟨id :: out, ?_, ?_⟩
      · rw [visitWithin, hr]
        simp [visited]
      · rw [Tree.preorderAll_append] at below
        exact .cons first below

/-- A tree has no more nodes than the arena that holds it. -/
lemma Linked.size_le (h : Linked a loose) (held : a.Holds n t) : t.size ≤ a.size := by
  have one : List.Forall₂ a.Holds [n] [t] := .cons held .nil
  obtain ⟨out, visited, below⟩ := exists_visitWithin _ one (Nat.le_refl _)
  -- the visited nodes are all different, and all have a number
  obtain ⟨nodup, reached⟩ := h.coherent.visitWithin visited (List.pairwise_singleton _ _)
  have known : ∀ m ∈ out, m.toNat < a.size := by
    intro m hm
    obtain ⟨n', hn', down⟩ := (reached m).mp hm
    cases List.mem_singleton.mp hn'
    obtain ⟨r, hr, _⟩ := held.record
    exact Nat.lt_of_le_of_lt (UInt32.le_iff_toNat_le.mp (h.coherent.le_of_reaches down))
      (lt_size hr)
  have le := length_le_of_nodup nodup known
  rwa [below.length_eq, Tree.length_preorderAll, sizeAll, sizeAll, Nat.add_zero] at le

/-- Visiting a node ends, and lists the nodes of the tree it holds in their order. -/
lemma Linked.exists_visit (h : Linked a loose) (held : a.Holds n t) :
    ∃ out, a.visit n = some out ∧ List.Forall₂ a.Holds out t.preorder := by
  have one : List.Forall₂ a.Holds [n] [t] := .cons held .nil
  obtain ⟨out, visited, below⟩ := exists_visitWithin a.size one (h.size_le held)
  rw [preorderAll, preorderAll, List.append_nil] at below
  exact ⟨out, visited, below⟩

/-! ## From any node -/

/-- Every node holds a tree. -/
lemma Linked.exists_holds (h : Linked a loose) (lt : n.toNat < a.size) : ∃ t, a.Holds n t := by
  induction number : n.toNat using Nat.strongRecOn generalizing n with
  | ind number' ih =>
    obtain ⟨r, hr⟩ := exists_record lt
    have children : ∀ c ∈ r.children, ∃ t, a.Holds c t := by
      intro c hc
      have below := h.below hr hc
      exact ih _ (number ▸ below) (Nat.lt_trans below lt) rfl
    choose! f hf using children
    refine ⟨r.node (r.children.map f), holds_node hr ?_⟩
    exact List.forall₂_map_right_iff.mpr (List.forall₂_same.mpr hf)

/-- Going back from any node ends. -/
lemma Linked.exists_kindsBefore (h : Linked a loose) (lt : n.toNat < a.size) :
    ∃ kinds, a.kindsBefore n = some kinds := by
  obtain ⟨q, hq⟩ := exists_record lt
  cases e : q.parent with
  | none => exact ⟨[], kindsBefore_of_free hq e⟩
  | some p =>
    obtain ⟨r, hr, mem⟩ := h.parent hq e
    obtain ⟨i, hi⟩ := List.mem_iff_getElem?.mp mem
    obtain ⟨t, held⟩ := h.exists_holds (lt_size hr)
    obtain ⟨r', hr', _, children⟩ := held.record
    cases hr.symm.trans hr'
    exact ⟨_, h.kindsBefore hr children hi⟩

/-- The walks from a node end inside the arena. -/
structure Walkable (a : Arena) (n : NodeId) : Prop where
  up : ∃ ids, a.ancestors n = some ids
  back : ∃ kinds, a.kindsBefore n = some kinds
  down : ∀ pos, ∃ id, a.descend pos n = some id
  below : ∃ ids, a.visit n = some ids

/-- All walks from a node of a linked arena end inside it. -/
lemma Linked.walkable (h : Linked a loose) (lt : n.toNat < a.size) : Walkable a n := by
  obtain ⟨t, held⟩ := h.exists_holds lt
  refine ⟨h.exists_ancestorsWithin lt (Nat.le_add_left _ _), h.exists_kindsBefore lt, fun pos => ?_,
    ?_⟩
  · obtain ⟨id, down, _⟩ := Stands.top.descendWithin held h pos lt
    exact ⟨id, down⟩
  · obtain ⟨ids, visited, _⟩ := h.exists_visit held
    exact ⟨ids, visited⟩

end Arena

namespace StoredTree

open TypeqlAssist.Tree (cut)

variable {s : StoredTree} {root : Tree} {loose : List NodeId}

/-- The nodes of a stored tree show those of the tree, in the same order. -/
lemma views_eq (held : s.arena.Holds s.root root) (linked : Arena.Linked s.arena loose)
    (depth : Nat) : s.views depth = some (root.preorder.map (cut depth)) := by
  obtain ⟨out, visited, below⟩ := linked.exists_visit held
  rw [views, preorder, visited]
  exact Arena.mapM_view? below

/-- The node at a cursor is that of the location at the cursor. -/
lemma exists_resolve (held : s.arena.Holds s.root root) (linked : Arena.Linked s.arena loose)
    (pos : Nat) :
    ∃ id, s.resolve pos = some id ∧
      Arena.Stands s.arena s.root root id (root.resolve pos) := by
  obtain ⟨r, hr, node, _⟩ := held.record
  rw [resolve, hr, Tree.resolve, Record.stop_eq node]
  exact Arena.Stands.top.descendWithin held linked _ (Arena.lt_size hr)

end StoredTree

end TypeqlAssist

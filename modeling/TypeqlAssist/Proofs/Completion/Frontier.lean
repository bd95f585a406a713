import TypeqlAssist.Completion.Result
import TypeqlAssist.Proofs.Document.Cursor

/-!
# The left frontier of a cursor

What stands before the cursor below a node that is asked is its left frontier: the nodes that start
before the cursor and hang from the way between the two, in document order (`contexts_frontier`).
The kinds are collected without a look at offsets, by going up from sibling to sibling; that they
are the right ones rests on the layout of the tree.
-/

namespace TypeqlAssist

open TypeqlAssist.Tree Grammar Location

namespace Tree

/-! ## Locations in document order -/

mutual

/-- The locations in a tree, each before those of its children and in document order. -/
def locations (path : List Step) : Tree → List Location
  | node k a b cs => ⟨node k a b cs, path⟩ :: locationsFrom (node k a b cs) path 0 cs

/-- The locations in the children of a node from an index on. -/
def locationsFrom (parent : Tree) (path : List Step) : (index : Nat) → List Tree → List Location
  | _, [] => []
  | i, t :: ts => locations (⟨parent, i⟩ :: path) t ++ locationsFrom parent path (i + 1) ts

end

namespace Location

/-- The locations below a location, in document order. -/
def below (l : Location) : List Location :=
  locationsFrom l.focus l.path 0 l.focus.children

/-- A location and the ones above it, up to the root. -/
def upward (t : Tree) : List Step → List Location
  | [] => [⟨t, []⟩]
  | s :: path => ⟨t, s :: path⟩ :: upward s.parent path

variable {l m n c d r : Location}

/-- A child is one step further from the root. -/
lemma HasChild.length_path (h : HasChild l c) : c.path.length = l.path.length + 1 := by
  obtain ⟨i, _, e⟩ := hasChild_iff.mp h
  rw [e, List.length_cons]

/-- The way down leads no closer to the root. -/
lemma Reaches.length_path_le (h : Reaches l n) : l.path.length ≤ n.path.length := by
  induction h with
  | refl => exact Nat.le_refl _
  | tail _ step ih =>
    rw [step.length_path]
    exact Nat.le_succ_of_le ih

/-- What is reached is further from the root, unless it is the start itself. -/
lemma Reaches.eq_of_length_path_le (h : Reaches l n) (le : n.path.length ≤ l.path.length) :
    l = n := by
  rcases Relation.ReflTransGen.cases_tail h with e | ⟨m, above, step⟩
  · exact e.symm
  · have down := Reaches.length_path_le above
    have length := step.length_path
    omega

/-- Only one child is on the way down to a location. -/
lemma HasChild.unique (hc : HasChild l c) (hd : HasChild l d) (down : Reaches c r)
    (down' : Reaches d r) : c = d := by
  have length : c.path.length = d.path.length := hc.length_path.trans hd.length_path.symm
  rcases down.total down' with h | h
  · exact h.eq_of_length_path_le (Nat.le_of_eq length.symm)
  · exact (h.eq_of_length_path_le (Nat.le_of_eq length)).symm

/-- The way down does not lead back to the parent. -/
lemma HasChild.not_reaches (h : HasChild l c) : ¬ Reaches c l := by
  intro back
  have le := back.length_path_le
  have length := h.length_path
  omega

/-- The locations in a tree are its top and those below. -/
lemma locations_eq (l : Location) : locations l.path l.focus = l :: l.below := by
  obtain ⟨⟨k, a, b, cs⟩, path⟩ := l
  rfl

/-- Locations in two parts of the children are listed one part after the other. -/
lemma locationsFrom_append (parent : Tree) (path : List Step) (i : Nat) (ts us : List Tree) :
    locationsFrom parent path i (ts ++ us) =
      locationsFrom parent path i ts ++ locationsFrom parent path (i + ts.length) us := by
  induction ts generalizing i with
  | nil => rfl
  | cons t ts ih =>
    rw [List.cons_append, locationsFrom, locationsFrom, ih, List.append_assoc, List.length_cons,
      Nat.add_right_comm, Nat.add_assoc]

mutual

/-- The nodes at the locations in a tree are its nodes in document order. -/
lemma map_focus_locations (path : List Step) :
    ∀ t : Tree, (locations path t).map (·.focus) = t.preorder
  | node k a b cs => congrArg _ (map_focus_locationsFrom (node k a b cs) path 0 cs)

/-- The nodes at the locations in the children are their nodes in document order. -/
lemma map_focus_locationsFrom (parent : Tree) (path : List Step) (i : Nat) :
    ∀ ts : List Tree, (locationsFrom parent path i ts).map (·.focus) = preorderAll ts
  | [] => rfl
  | t :: ts => by
    rw [locationsFrom, List.map_append, map_focus_locations, map_focus_locationsFrom,
      preorderAll_cons]

end

mutual

/-- The locations in a tree are those that the way down leads to. -/
lemma mem_locations (path : List Step) :
    ∀ t : Tree, n ∈ locations path t ↔ Reaches ⟨t, path⟩ n
  | node k a b cs => by
    rw [locations, List.mem_cons, mem_locationsFrom (node k a b cs) path 0 cs, Reaches,
      Relation.ReflTransGen.cases_head_iff]
    refine or_congr eq_comm ?_
    constructor
    · rintro ⟨j, t, ht, down⟩
      rw [Nat.zero_add] at down
      exact ⟨⟨t, ⟨node k a b cs, j⟩ :: path⟩, hasChild_iff.mpr ⟨j, ht, rfl⟩, down⟩
    · rintro ⟨⟨t, _⟩, step, down⟩
      obtain ⟨j, ht, rfl⟩ := hasChild_iff.mp step
      refine ⟨j, t, ht, ?_⟩
      rwa [Nat.zero_add]

/-- The locations in the children are those reached from one of them. -/
lemma mem_locationsFrom (parent : Tree) (path : List Step) (i : Nat) :
    ∀ ts : List Tree, n ∈ locationsFrom parent path i ts ↔
      ∃ j t, ts[j]? = some t ∧ Reaches ⟨t, ⟨parent, i + j⟩ :: path⟩ n
  | [] => by
    constructor
    · exact nofun
    · rintro ⟨j, t, ht, _⟩
      cases ht
  | t :: ts => by
    rw [locationsFrom, List.mem_append, mem_locations (⟨parent, i⟩ :: path) t,
      mem_locationsFrom parent path (i + 1) ts]
    constructor
    · rintro (down | ⟨j, u, hu, down⟩)
      · exact ⟨0, t, rfl, down⟩
      · refine ⟨j + 1, u, hu, ?_⟩
        rwa [Nat.add_comm j, ← Nat.add_assoc]
    · rintro ⟨j, u, hu, down⟩
      cases j with
      | zero =>
        cases hu
        exact .inl down
      | succ j =>
        refine .inr ⟨j, u, hu, ?_⟩
        rwa [Nat.add_assoc, Nat.add_comm 1]

end

/-- The locations below a location are those that it leads to, and not the location itself. -/
lemma mem_below : n ∈ l.below ↔ Reaches l n ∧ n ≠ l := by
  have all := mem_locations (n := n) l.path l.focus
  rw [locations_eq, List.mem_cons] at all
  constructor
  · intro mem
    refine ⟨all.mp (.inr mem), ?_⟩
    rintro rfl
    obtain ⟨j, t, ht, down⟩ := (mem_locationsFrom _ _ _ _).mp mem
    have step : HasChild n ⟨t, ⟨n.focus, 0 + j⟩ :: n.path⟩ :=
      hasChild_iff.mpr ⟨0 + j, by rwa [Nat.zero_add], rfl⟩
    exact step.not_reaches down
  · rintro ⟨down, ne⟩
    exact (all.mpr down).resolve_left ne

/-- The locations above a location are those that lead to it. -/
lemma mem_upward {root : Tree} (h : Reaches (ofRoot root) r) :
    l ∈ upward r.focus r.path ↔ Reaches l r := by
  induction h with
  | refl =>
    rw [ofRoot, upward, List.mem_singleton]
    constructor
    · rintro rfl
      exact .refl
    · exact Reaches.eq_ofRoot
  | @tail m r _ step ih =>
    obtain ⟨t, path⟩ := r
    obtain ⟨i, ht, rfl⟩ := hasChild_iff.mp step
    rw [upward, List.mem_cons, ih, step.reaches_iff]

/-! ## The frontier -/

/--
A node hangs from the way down to another one on its left: it starts before the cursor and is not on
the way, but its parent is. What an error node at the end of the way wraps does not count.
-/
structure OnFrontier (r : Location) (cursor : Nat) (n : Location) : Prop where
  starts : n.focus.start < cursor
  off : ¬ Reaches n r
  hangs : ∃ m, HasChild m n ∧ Reaches m r ∧ (m = r → r.focus.kind ≠ .error)

open Classical in
/-- The nodes below a location that hang from the way down to another one on its left. -/
noncomputable def frontier (r : Location) (cursor : Nat) (l : Location) : List Location :=
  l.below.filter fun n => OnFrontier r cursor n

variable {P : Nat → Prop} {cursor : Nat}

/-- The frontier is made of the locations below that are on it. -/
lemma mem_frontier : n ∈ frontier r cursor l ↔ n ∈ l.below ∧ OnFrontier r cursor n := by
  simp [frontier]

/-- Nothing below a node beside the way is on the frontier. -/
lemma not_onFrontier (hc : ¬ Reaches c r) (below : n ∈ c.below) : ¬ OnFrontier r cursor n := by
  intro h
  obtain ⟨m, step, down, _⟩ := h.hangs
  obtain ⟨reached, ne⟩ := mem_below.mp below
  rcases step.reaches_iff.mp reached with e | above
  · exact ne e.symm
  · exact hc (above.trans down)

/-- A child beside the way is on the frontier if it starts before the cursor. -/
lemma onFrontier_iff (hl : Reaches l r) (step : HasChild l c) (hc : ¬ Reaches c r) :
    OnFrontier r cursor c ↔ c.focus.start < cursor ∧ (l = r → r.focus.kind ≠ .error) := by
  constructor
  · intro h
    obtain ⟨m, step', _, plain⟩ := h.hangs
    cases step'.parent_unique step
    exact ⟨h.starts, plain⟩
  · rintro ⟨starts, plain⟩
    exact ⟨starts, hc, l, step, hl, plain⟩

open Classical in
/-- Of the children beside the way, those on the frontier start before the cursor. -/
lemma filter_locationsFrom (hl : Reaches l r) (plain : l = r → r.focus.kind ≠ .error) {i : Nat}
    {ts : List Tree} (h : ∀ j t, ts[j]? = some t →
      HasChild l ⟨t, ⟨l.focus, i + j⟩ :: l.path⟩ ∧ ¬ Reaches ⟨t, ⟨l.focus, i + j⟩ :: l.path⟩ r) :
    ((locationsFrom l.focus l.path i ts).filter fun n => OnFrontier r cursor n).map (·.focus) =
      ts.filter (·.start < cursor) := by
  induction ts generalizing i with
  | nil => rfl
  | cons t ts ih =>
    obtain ⟨step, hc⟩ := h 0 t rfl
    rw [Nat.add_zero] at step hc
    have rest := ih (i := i + 1) fun j u hu => by
      rw [Nat.add_assoc, Nat.add_comm 1]
      exact h (j + 1) u hu
    have first : (locations (⟨l.focus, i⟩ :: l.path) t).filter (fun n => OnFrontier r cursor n) =
        if t.start < cursor then [⟨t, ⟨l.focus, i⟩ :: l.path⟩] else [] := by
      have none : (below ⟨t, ⟨l.focus, i⟩ :: l.path⟩).filter (fun n => OnFrontier r cursor n) =
          [] := by
        refine List.filter_eq_nil_iff.mpr fun n hn => ?_
        rw [decide_eq_true_eq]
        exact not_onFrontier hc hn
      rw [locations_eq ⟨t, ⟨l.focus, i⟩ :: l.path⟩, List.filter_cons, none]
      simp only [onFrontier_iff hl step hc, decide_eq_true_eq, and_iff_left plain]
    rw [locationsFrom, List.filter_append, List.map_append, first, rest, List.filter_cons]
    by_cases starts : t.start < cursor
    · rw [if_pos starts, if_pos (decide_eq_true starts)]
      rfl
    · rw [if_neg starts, if_neg (by simpa using starts)]
      rfl

/-- In a row that is laid out, the trees up to the last one before a cursor start before it. -/
lemma kindsUpTo_of_laid {t : Tree} {lo hi : Nat} (laid : Laid P lo t.children hi)
    (plain : t.kind ≠ .error) :
    t.kindsUpTo cursor = (t.children.filter (·.start < cursor)).map kind := by
  have ordered : t.children.Pairwise fun t u => t.start ≤ u.start := by
    refine laid.pairwise.imp_of_mem fun {t u} ht _ le => ?_
    exact Nat.le_trans (laid.of_mem ht).2.2.2.2.le le
  have fine : ¬ t.kind.isError = true := fun error => plain (isError_iff.mp error)
  rw [kindsUpTo, if_neg fine]
  generalize t.children = ts at ordered
  congr 1
  induction ts using List.reverseRecOn with
  | nil => rfl
  | append_singleton ts u ih =>
    obtain ⟨front, _, before⟩ := List.pairwise_append.mp ordered
    rw [List.reverse_append, List.reverse_singleton, List.singleton_append, List.filter_append]
    by_cases starts : u.start < cursor
    · have all : ts.filter (·.start < cursor) = ts := by
        refine List.filter_eq_self.mpr fun t ht => ?_
        have le := before t ht u (.head _)
        exact decide_eq_true (by omega)
      rw [List.dropWhile_cons_of_neg (by simpa using starts), all]
      simp [starts]
    · rw [List.dropWhile_cons_of_pos (by simpa using starts), ih front]
      simp [starts]

/-- What stands before the cursor at the end of the way is the frontier there. -/
lemma frontier_self {lo hi : Nat} (laid : Laid P lo r.focus.children hi) :
    (frontier r cursor r).map (·.focus.kind) = r.focus.kindsUpTo cursor := by
  have beside (j : Nat) (t : Tree) (ht : r.focus.children[j]? = some t) :
      HasChild r ⟨t, ⟨r.focus, 0 + j⟩ :: r.path⟩ ∧
        ¬ Reaches ⟨t, ⟨r.focus, 0 + j⟩ :: r.path⟩ r := by
    have step : HasChild r ⟨t, ⟨r.focus, 0 + j⟩ :: r.path⟩ :=
      hasChild_iff.mpr ⟨0 + j, by rwa [Nat.zero_add], rfl⟩
    exact ⟨step, step.not_reaches⟩
  by_cases error : r.focus.kind = .error
  · have none : frontier r cursor r = [] := by
      refine List.eq_nil_iff_forall_not_mem.mpr fun n hn => ?_
      obtain ⟨below, h⟩ := mem_frontier.mp hn
      obtain ⟨m, step, down, plain⟩ := h.hangs
      obtain ⟨reached, ne⟩ := mem_below.mp below
      rcases step.reaches_iff.mp reached with e | above
      · exact ne e.symm
      · have same := down.eq_of_length_path_le (Reaches.length_path_le above)
        exact plain same error
    rw [none, kindsUpTo, if_pos (isError_iff.mpr error)]
    rfl
  · rw [kindsUpTo_of_laid laid error, ← filter_locationsFrom .refl (fun _ => error) beside,
      List.map_map]
    rfl

open Classical in
/-- Of the siblings of the node on the way, those on the frontier start before the cursor. -/
lemma filter_siblings (step : HasChild l c) (down : Reaches c r) {i k : Nat} {ts : List Tree}
    (path : c.path = ⟨l.focus, i⟩ :: l.path)
    (h : ∀ j t, ts[j]? = some t → l.focus.children[k + j]? = some t ∧ k + j ≠ i) :
    ((locationsFrom l.focus l.path k ts).filter fun n => OnFrontier r cursor n).map (·.focus) =
      ts.filter (·.start < cursor) := by
  have above : l ≠ r := by
    rintro rfl
    exact step.not_reaches down
  refine filter_locationsFrom (.head step down) (fun e => absurd e above) fun j t ht => ?_
  obtain ⟨child, ne⟩ := h j t ht
  have step' : HasChild l ⟨t, ⟨l.focus, k + j⟩ :: l.path⟩ := hasChild_iff.mpr ⟨k + j, child, rfl⟩
  refine ⟨step', fun down' => ne ?_⟩
  -- of the children, only the one on the way leads further down
  have same := step'.unique step down' down
  rw [← same] at path
  exact congrArg Step.index (List.head_eq_of_cons_eq path)

open Classical in
/-- One step up, the siblings before the way are on the frontier, too. -/
lemma frontier_parent (orderly : l.Orderly P) (step : HasChild l c) (down : Reaches c r)
    (starts : r.focus.start < cursor) (stops : cursor ≤ r.focus.stop) :
    (frontier r cursor l).map (·.focus.kind) =
      c.kindsBefore ++ (frontier r cursor c).map (·.focus.kind) := by
  obtain ⟨first, last⟩ := (orderly.child step).within down
  obtain ⟨ts, us, split, path⟩ := step.exists_siblings
  obtain ⟨before, behind⟩ := orderly.siblings split
  -- a sibling before the way starts and ends in front of it, so it is on the frontier itself
  have left : ((locationsFrom l.focus l.path 0 ts).filter fun n => OnFrontier r cursor n).map
      (·.focus) = ts := by
    rw [filter_siblings step down path fun j t ht => ?_]
    · refine List.filter_eq_self.mpr fun t ht => decide_eq_true ?_
      have le := before t ht
      have mem : t ∈ l.focus.children := split ▸ List.mem_append_left _ ht
      have order := (orderly.laid.of_mem mem).2.2.2.2.le
      omega
    · have lt := (List.getElem?_eq_some_iff.mp ht).1
      rw [Nat.zero_add, split, List.getElem?_append_left lt]
      exact ⟨ht, Nat.ne_of_lt lt⟩
  -- behind the way, everything starts where the way ends or later
  have right : ((locationsFrom l.focus l.path (ts.length + 1) us).filter
      fun n => OnFrontier r cursor n).map (·.focus) = [] := by
    rw [filter_siblings step down path fun j t ht => ?_]
    · refine List.filter_eq_nil_iff.mpr fun t ht => ?_
      have le := behind t ht
      rw [decide_eq_true_eq]
      omega
    · rw [split, Nat.add_right_comm, Nat.add_assoc, List.getElem?_append_right (by omega),
        Nat.add_sub_cancel_left]
      exact ⟨ht, by omega⟩
  -- the child on the way is above the end of it, so only what is below may be on the frontier
  have here : (locations (⟨l.focus, ts.length⟩ :: l.path) c.focus).filter
      (fun n => OnFrontier r cursor n) = frontier r cursor c := by
    rw [← path, locations_eq, List.filter_cons_of_neg]
    · rfl
    · rw [decide_eq_true_eq]
      exact fun h => h.off down
  have kinds : c.kindsBefore = ((locationsFrom l.focus l.path 0 ts).filter
      fun n => OnFrontier r cursor n).map (·.focus.kind) :=
    calc
      c.kindsBefore = (l.focus.children.take ts.length).map kind := by rw [kindsBefore, path]
      _ = ts.map kind := by rw [split, List.take_left]
      _ = (((locationsFrom l.focus l.path 0 ts).filter
        fun n => OnFrontier r cursor n).map (·.focus)).map kind := by rw [left]
      _ = _ := List.map_map
  rw [frontier, below, split, locationsFrom_append, locationsFrom, Nat.zero_add,
    List.filter_append, List.filter_append, here, List.map_append, List.map_append,
    List.map_eq_nil_iff.mp right, List.map_nil, List.append_nil, kinds]

end Location

end Tree

namespace Completion

/-- Along the way up, what stands before the cursor is the frontier of each node. -/
lemma contextsAlong_frontier {P : Nat → Prop} {root : Tree} {cursor : Nat} {r l : Location}
    (orderly : (ofRoot root).Orderly P) (reached : Reaches (ofRoot root) l) (down : Reaches l r)
    (starts : l ≠ ofRoot root → r.focus.start < cursor ∧ cursor ≤ r.focus.stop) :
    contextsAlong l.focus ((frontier r cursor l).map (·.focus.kind)) l.path =
      (upward l.focus l.path).map fun a =>
        ⟨a.focus, (frontier r cursor a).map (·.focus.kind)⟩ := by
  induction reached with
  | refl => rfl
  | @tail m l above step ih =>
    obtain ⟨i, ht, path⟩ := hasChild_iff.mp step
    obtain ⟨t, path⟩ := l
    cases path
    have below : (⟨t, ⟨m.focus, i⟩ :: m.path⟩ : Location) ≠ ofRoot root := nofun
    obtain ⟨starts, stops⟩ := starts below
    have parent := frontier_parent (orderly.reaches above) step down starts stops
    have rest := ih (.head step down) fun _ => ⟨starts, stops⟩
    rw [contextsAlong, upward, List.map_cons, ← rest, parent]
    rfl

open Classical in
/--
The nodes that are asked at a cursor are the innermost node and all that are above it. What stands
before the cursor below each of them is its left frontier: the kinds of the nodes below it, in
document order, that start before the cursor and are not on the way between the two, but have their
parents there. What the innermost node wraps does not count if it is an error.
-/
theorem contexts_frontier (text : Text) (pos : Nat) :
    let cursor := min pos text.byteSize
    let r := (parseTree text).resolve cursor
    contextsAt r cursor = (upward r.focus r.path).map (fun a =>
      ⟨a.focus, (a.below.filter fun n => OnFrontier r cursor n).map (·.focus.kind)⟩) ∧
    (∀ a, a ∈ upward r.focus r.path ↔ Reaches a r) ∧
    ∀ a : Location, a.below.map (·.focus) = preorderAll a.focus.children ∧
      ∀ n, n ∈ a.below ↔ Reaches a n ∧ n ≠ a := by
  intro cursor r
  have orderly := orderly_of_text text
  have reached : Reaches (ofRoot (parseTree text)) r := reaches_resolve text cursor
  refine ⟨?_, fun a => mem_upward reached, fun a => ⟨map_focus_locationsFrom _ _ _ _, ?_⟩⟩
  · have touched (below : r ≠ ofRoot (parseTree text)) :
        r.focus.start < cursor ∧ cursor ≤ r.focus.stop := by
      have here := (resolve_isAt orderly cursor).2.resolve_right below
      have last : min cursor (parseTree text).stop = cursor :=
        Nat.min_eq_left (Nat.min_le_right _ _)
      rw [last] at here
      exact ⟨here.starts, here.stops⟩
    have along := contextsAlong_frontier orderly reached .refl touched
    rwa [frontier_self (orderly.reaches reached).laid] at along
  · exact fun n => mem_below

end Completion

end TypeqlAssist

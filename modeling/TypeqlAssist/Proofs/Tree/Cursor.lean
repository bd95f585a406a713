import Mathlib.Logic.Relation
import TypeqlAssist.Proofs.Tree.Layout
import TypeqlAssist.Tree.Location

/-!
# The node at a cursor

`Reaches` is the way down from a location to the locations below it, and `Descends` the way that a
cursor takes. In a tree that is laid out, two neighbours are never touched at once, so the way of
the cursor leads through every node that it touches outside of error nodes.
-/

namespace TypeqlAssist

namespace Tree

namespace Location

/-! ## The way down -/

/-- One location is that of a child of the node at the other. -/
def HasChild (l c : Location) : Prop :=
  ∃ i, l.child? i = some c

/-- Steps down to children lead from one location to the other, or there is no step to take. -/
def Reaches : Location → Location → Prop :=
  Relation.ReflTransGen HasChild

variable {l m n c d : Location}

/-- A child is found by its number, and its path says where it was found. -/
lemma hasChild_iff :
    HasChild l c ↔ ∃ i, l.focus.children[i]? = some c.focus ∧ c.path = ⟨l.focus, i⟩ :: l.path := by
  obtain ⟨t, path⟩ := c
  constructor
  · rintro ⟨i, h⟩
    obtain ⟨u, hu, e⟩ := Option.map_eq_some_iff.mp h
    cases e
    exact ⟨i, hu, rfl⟩
  · rintro ⟨i, ht, e⟩
    cases e
    exact ⟨i, Option.map_eq_some_iff.mpr ⟨t, ht, rfl⟩⟩

/-- The node at a child is a child of the node. -/
lemma HasChild.mem (h : HasChild l c) : c.focus ∈ l.focus.children := by
  obtain ⟨i, hi, _⟩ := hasChild_iff.mp h
  exact List.mem_of_getElem? hi

/-- A child leads back up to its parent. -/
lemma HasChild.parent? (h : HasChild l c) : c.parent? = some l := by
  obtain ⟨i, _, e⟩ := hasChild_iff.mp h
  rw [Location.parent?, e]

/-- The ancestors of a child are its parent and the ancestors of that. -/
lemma HasChild.ancestors (h : HasChild l c) : c.ancestors = l.focus :: l.ancestors := by
  obtain ⟨i, _, e⟩ := hasChild_iff.mp h
  rw [Location.ancestors, e]
  rfl

/-- A child stands between the siblings before it and those behind it. -/
lemma HasChild.exists_siblings (h : HasChild l c) :
    ∃ ts us, l.focus.children = ts ++ c.focus :: us ∧ c.path = ⟨l.focus, ts.length⟩ :: l.path := by
  obtain ⟨i, hi, path⟩ := hasChild_iff.mp h
  obtain ⟨lt, e⟩ := List.getElem?_eq_some_iff.mp hi
  refine ⟨l.focus.children.take i, l.focus.children.drop (i + 1), ?_, ?_⟩
  · rw [← e, List.getElem_cons_drop, List.take_append_drop]
  · rw [List.length_take_of_le (Nat.le_of_lt lt), path]

/-- A location is the child of one parent only. -/
lemma HasChild.parent_unique (hl : HasChild l c) (hm : HasChild m c) : l = m :=
  Option.some.inj (hl.parent?.symm.trans hm.parent?)

/-- The way to a child leads through the parent. -/
lemma HasChild.reaches_iff (h : HasChild l c) : Reaches n c ↔ n = c ∨ Reaches n l := by
  constructor
  · intro down
    rcases Relation.ReflTransGen.cases_tail down with e | ⟨m, above, step⟩
    · exact .inl e.symm
    · cases step.parent_unique h
      exact .inr above
  · rintro (rfl | above)
    · exact .refl
    · exact above.tail h

/-- Of two locations above a third one, one is above the other. -/
lemma Reaches.total (hl : Reaches l n) (hm : Reaches m n) : Reaches l m ∨ Reaches m l := by
  -- going up there is no choice, since a location has one parent
  have unique : Relator.RightUnique (Function.swap HasChild) :=
    fun _ _ _ hl hm => HasChild.parent_unique hl hm
  rcases Relation.ReflTransGen.total_of_right_unique unique hl.swap hm.swap with h | h
  · exact .inr h.swap
  · exact .inl h.swap

/-- Nothing is above the root. -/
lemma Reaches.eq_ofRoot {root : Tree} (h : Reaches l (ofRoot root)) : l = ofRoot root := by
  rcases Relation.ReflTransGen.cases_tail h with e | ⟨m, _, step⟩
  · exact e.symm
  · obtain ⟨i, _, e⟩ := hasChild_iff.mp step
    cases e

/-- Further down, there are more ancestors. -/
lemma Reaches.ancestors_subset (h : Reaches l n) : l.ancestors ⊆ n.ancestors := by
  induction h with
  | refl => exact List.Subset.refl _
  | tail _ step ih =>
    rw [step.ancestors]
    exact List.subset_cons_of_subset _ ih

/-- Every ancestor stands at a location with a child, on the way from the root. -/
lemma Reaches.exists_of_mem_ancestors {root a : Tree} (h : Reaches (ofRoot root) l)
    (ha : a ∈ l.ancestors) : ∃ m c, Reaches (ofRoot root) m ∧ HasChild m c ∧ m.focus = a := by
  induction h with
  | refl => cases ha
  | @tail m c down step ih =>
    rw [step.ancestors] at ha
    rcases List.mem_cons.mp ha with rfl | ha
    · exact ⟨m, c, down, step, rfl⟩
    · exact ih ha

/-- What is reached is a node below. -/
lemma Reaches.mem_preorder (h : Reaches l n) : n.focus ∈ l.focus.preorder := by
  induction h using Relation.ReflTransGen.head_induction_on with
  | refl =>
    cases n.focus
    exact .head _
  | @head l c step _ ih =>
    obtain ⟨⟨k, a, b, cs⟩, path⟩ := l
    exact .tail _ (mem_preorderAll_of_mem step.mem ih)

mutual

/-- The way down leads to every node of a tree. -/
lemma exists_reaches {n : Tree} (path : List Step) :
    ∀ t : Tree, n ∈ t.preorder → ∃ l, Reaches ⟨t, path⟩ l ∧ l.focus = n
  | node k a b cs, h => by
    rcases List.mem_cons.mp h with rfl | h
    · exact ⟨_, .refl, rfl⟩
    · obtain ⟨i, t, ht, down⟩ := exists_reaches_below cs h
      obtain ⟨l, hl, e⟩ := down (⟨node k a b cs, i⟩ :: path)
      have step : HasChild ⟨node k a b cs, path⟩ ⟨t, ⟨node k a b cs, i⟩ :: path⟩ :=
        hasChild_iff.mpr ⟨i, ht, rfl⟩
      exact ⟨l, .head step hl, e⟩

/-- Every node below some trees is reached from one of them. -/
lemma exists_reaches_below {n : Tree} :
    ∀ ts : List Tree, n ∈ preorderAll ts →
      ∃ (i : Nat) (t : Tree), ts[i]? = some t ∧ ∀ path, ∃ l, Reaches ⟨t, path⟩ l ∧ l.focus = n
  | [], h => nomatch h
  | t :: ts, h => by
    rcases List.mem_append.mp h with h | h
    · exact ⟨0, t, rfl, fun path => exists_reaches path t h⟩
    · obtain ⟨i, u, hu, down⟩ := exists_reaches_below ts h
      exact ⟨i + 1, u, hu, down⟩

end

end Location

/-! ## Touching -/

open Location

variable {P : Nat → Prop} {l m n c d : Location} {cursor : Nat} {t : Tree}

/--
The cursor touches a node that starts in front of it and does not stop there, if it is no
punctuation.
-/
lemma touches_iff :
    t.touches cursor = true ↔
      t.start < cursor ∧ cursor ≤ t.stop ∧ t.kind.isPunctuation = false := by
  simp [touches, and_assoc]

/-- What is below a location is laid out, and punctuation only stands at the leaves. -/
structure Location.Orderly (P : Nat → Prop) (l : Location) : Prop where
  laid : Laid P l.focus.start l.focus.children l.focus.stop
  leaves : ∀ t ∈ l.focus.preorder, t.kind.isPunctuation = true → t.children = []

/-- Siblings stand in order. -/
lemma Location.Orderly.siblings (h : l.Orderly P) {ts us : List Tree}
    (split : l.focus.children = ts ++ t :: us) :
    (∀ u ∈ ts, u.stop ≤ t.start) ∧ ∀ u ∈ us, t.stop ≤ u.start := by
  have apart := h.laid.pairwise
  rw [split] at apart
  obtain ⟨_, behind, before⟩ := List.pairwise_append.mp apart
  exact ⟨fun u hu => before u hu t (.head _), (List.pairwise_cons.mp behind).1⟩

/-- What is below an orderly location is orderly. -/
lemma Location.Orderly.child (h : l.Orderly P) (hc : HasChild l c) : c.Orderly P where
  laid := (h.laid.of_mem hc.mem).2.2.2.2
  leaves := by
    obtain ⟨⟨k, a, b, cs⟩, path⟩ := l
    exact fun t ht => h.leaves t (.tail _ (mem_preorderAll_of_mem hc.mem ht))

/-- What is reached from an orderly location is orderly. -/
lemma Location.Orderly.reaches (h : l.Orderly P) (hn : Reaches l n) : n.Orderly P := by
  induction hn with
  | refl => exact h
  | tail _ step ih => exact ih.child step

/-- What is below a node stands between its ends. -/
lemma Location.Orderly.within (h : l.Orderly P) (hn : Reaches l n) :
    l.focus.start ≤ n.focus.start ∧ n.focus.stop ≤ l.focus.stop := by
  induction hn using Relation.ReflTransGen.head_induction_on with
  | refl => exact ⟨Nat.le_refl _, Nat.le_refl _⟩
  | head step _ ih =>
    obtain ⟨start, stop, _⟩ := h.laid.of_mem step.mem
    obtain ⟨start', stop'⟩ := ih (h.child step)
    exact ⟨Nat.le_trans start start', Nat.le_trans stop' stop⟩

/-- A node above one that the cursor touches is touched, too. -/
lemma Location.Orderly.touches (h : l.Orderly P) (hn : Reaches l n)
    (touched : n.focus.touches cursor = true) : l.focus.touches cursor = true := by
  obtain ⟨start, stop⟩ := h.within hn
  obtain ⟨startn, stopn, plain⟩ := touches_iff.mp touched
  rcases hn.cases_head with rfl | ⟨c, hc, _⟩
  · exact touched
  · refine touches_iff.mpr ⟨by omega, by omega, ?_⟩
    -- punctuation has no children
    have mem : l.focus ∈ l.focus.preorder := Reaches.mem_preorder .refl
    have child := List.ne_nil_of_mem hc.mem
    exact Bool.eq_false_iff.mpr fun punctuation => child (h.leaves _ mem punctuation)

/-- Two children are the same, or one stands in front of the other. -/
lemma Location.Orderly.apart (h : l.Orderly P) (hc : HasChild l c) (hd : HasChild l d) :
    c = d ∨ c.focus.stop ≤ d.focus.start ∨ d.focus.stop ≤ c.focus.start := by
  obtain ⟨i, hi, pi⟩ := hasChild_iff.mp hc
  obtain ⟨j, hj, pj⟩ := hasChild_iff.mp hd
  obtain ⟨li, ei⟩ := List.getElem?_eq_some_iff.mp hi
  obtain ⟨lj, ej⟩ := List.getElem?_eq_some_iff.mp hj
  have ordered := List.pairwise_iff_getElem.mp h.laid.pairwise
  rcases Nat.lt_trichotomy i j with lt | rfl | lt
  · have apart := ordered i j li lj lt
    rw [ei, ej] at apart
    exact .inr (.inl apart)
  · obtain ⟨tc, path⟩ := c
    obtain ⟨td, path'⟩ := d
    cases pi
    cases pj
    cases hi.symm.trans hj
    exact .inl rfl
  · have apart := ordered j i lj li lt
    rw [ei, ej] at apart
    exact .inr (.inr apart)

/-- The cursor touches one child at most. -/
lemma Location.Orderly.touches_unique (h : l.Orderly P) (hc : HasChild l c) (hd : HasChild l d)
    (tc : c.focus.touches cursor = true) (td : d.focus.touches cursor = true) : c = d := by
  obtain ⟨startc, stopc, _⟩ := touches_iff.mp tc
  obtain ⟨startd, stopd, _⟩ := touches_iff.mp td
  rcases h.apart hc hd with e | before | behind
  · exact e
  · omega
  · omega

/-- Of two nodes that share a part of the text, one is above the other. -/
lemma Location.Orderly.overlaps (h : l.Orderly P) (hm : Reaches l m) (hn : Reaches l n)
    (left : m.focus.start < n.focus.stop) (right : n.focus.start < m.focus.stop) :
    Reaches m n ∨ Reaches n m := by
  induction hm using Relation.ReflTransGen.head_induction_on with
  | refl => exact .inl hn
  | @head l c hc below ih =>
    rcases hn.cases_head with rfl | ⟨d, hd, below'⟩
    · exact .inr (.head hc below)
    have within := (h.child hc).within below
    have within' := (h.child hd).within below'
    rcases h.apart hc hd with rfl | before | behind
    · exact ih (h.child hc) below'
    · omega
    · omega

/-! ## The way of the cursor -/

/-- The cursor goes down to children that it touches, and stops at an error or without such one. -/
inductive Descends (cursor : Nat) : Location → Location → Prop where
  | stop {l : Location} :
    (l.focus.kind ≠ .error → ∀ c, HasChild l c → c.focus.touches cursor = false) →
    Descends cursor l l
  | enter {l c m : Location} :
    l.focus.kind ≠ .error →
    HasChild l c →
    c.focus.touches cursor = true →
    Descends cursor c m →
    Descends cursor l m

/-- Only one kind is that of errors. -/
lemma isError_iff {k : Kind} : k.isError = true ↔ k = .error := by
  cases k <;> decide

mutual

/-- `descend` goes the way of the cursor. -/
lemma descends_descend (cursor : Nat) (path : List Step) :
    ∀ t : Tree, Descends cursor ⟨t, path⟩ (descend cursor path t)
  | node k a b cs => by
    rw [descend]
    split
    next error => exact .stop fun ne => absurd (isError_iff.mp error) ne
    next fine =>
      have ne : k ≠ .error := fun e => fine (isError_iff.mpr e)
      have last := descends_descendLast cursor (node k a b cs) path 0 cs fun i c hc => by
        rwa [Nat.zero_add]
      cases h : descendLast cursor (node k a b cs) path 0 cs with
      | none =>
        refine .stop fun _ c hc => ?_
        exact last.1 h c.focus hc.mem
      | some m =>
        obtain ⟨c, hc, touched, down⟩ := last.2 m h
        exact .enter ne hc touched down

/-- `descendLast` enters a child that the cursor touches, if there is one. -/
lemma descends_descendLast (cursor : Nat) (parent : Tree) (path : List Step) (index : Nat) :
    ∀ ts : List Tree, (∀ i t, ts[i]? = some t → parent.children[index + i]? = some t) →
      (descendLast cursor parent path index ts = none → ∀ t ∈ ts, t.touches cursor = false) ∧
      (∀ m, descendLast cursor parent path index ts = some m →
        ∃ c, HasChild ⟨parent, path⟩ c ∧ c.focus.touches cursor = true ∧ Descends cursor c m)
  | [], _ => ⟨fun _ _ mem => (nomatch mem), fun _ e => (nomatch e)⟩
  | t :: ts, h => by
    have rest := descends_descendLast cursor parent path (index + 1) ts fun i u hu => by
      rw [Nat.add_assoc, Nat.add_comm 1 i]
      exact h (i + 1) u hu
    rw [descendLast]
    cases e : descendLast cursor parent path (index + 1) ts with
    | some m =>
      refine ⟨nofun, ?_⟩
      rintro _ ⟨⟩
      exact rest.2 m e
    | none =>
      have down := descends_descend cursor (⟨parent, index⟩ :: path) t
      cases touched : t.touches cursor with
      | false =>
        refine ⟨fun _ u mem => ?_, nofun⟩
        rcases List.mem_cons.mp mem with rfl | mem
        · exact touched
        · exact rest.1 e u mem
      | true =>
        refine ⟨nofun, ?_⟩
        rintro _ ⟨⟩
        exact ⟨_, hasChild_iff.mpr ⟨index, h 0 t rfl, rfl⟩, touched, down⟩

end

/-- Where the cursor goes down is below. -/
lemma Descends.reaches (h : Descends cursor l m) : Reaches l m := by
  induction h with
  | stop => exact .refl
  | enter _ hc _ _ ih => exact .head hc ih

/-- The cursor stays where it is, or ends at a node that it touches. -/
lemma Descends.touches (h : Descends cursor l m) : m = l ∨ m.focus.touches cursor = true := by
  induction h with
  | stop => exact .inl rfl
  | enter _ _ touched _ ih =>
    rcases ih with rfl | ih
    · exact .inr touched
    · exact .inr ih

/-- The cursor goes through no error node. -/
lemma Descends.ancestors (h : Descends cursor l m) (hl : ∀ a ∈ l.ancestors, a.kind ≠ .error) :
    ∀ a ∈ m.ancestors, a.kind ≠ .error := by
  induction h with
  | stop => exact hl
  | enter ne hc _ _ ih =>
    apply ih
    rw [hc.ancestors]
    exact List.forall_mem_cons.mpr ⟨ne, hl⟩

/-- The way of the cursor leads through every node that it touches outside of error nodes. -/
lemma Descends.through (h : Descends cursor l m) (orderly : l.Orderly P) (hn : Reaches l n)
    (touched : n.focus.touches cursor = true) (clear : ∀ a ∈ n.ancestors, a.kind ≠ .error) :
    Reaches n m := by
  induction h with
  | @stop l untouched =>
    rcases hn.cases_head with rfl | ⟨c, hc, hn⟩
    · exact .refl
    · have above : l.focus ∈ n.ancestors := Reaches.ancestors_subset hn (hc.ancestors ▸ .head _)
      have tc := (orderly.child hc).touches hn touched
      rw [untouched (clear _ above) c hc] at tc
      cases tc
  | @enter l c m _ hc tc down ih =>
    rcases hn.cases_head with rfl | ⟨d, hd, hn⟩
    · exact .head hc down.reaches
    · have td := (orderly.child hd).touches hn touched
      cases orderly.touches_unique hd hc td tc
      exact ih (orderly.child hc) hn

/-! ## Resolution -/

/-- The location is below the root and in no error node, and the cursor touches its node. -/
structure Location.IsAt (root : Tree) (cursor : Nat) (l : Location) : Prop where
  reached : Reaches (ofRoot root) l
  below : l ≠ ofRoot root
  starts : l.focus.start < cursor
  stops : cursor ≤ l.focus.stop
  plain : l.focus.kind.isPunctuation = false
  clear : ∀ a ∈ l.ancestors, a.kind ≠ .error

/-- The cursor touches the nodes that it stands at. -/
lemma Location.IsAt.touches {root : Tree} (h : l.IsAt root cursor) :
    l.focus.touches cursor = true :=
  touches_iff.mpr ⟨h.starts, h.stops, h.plain⟩

/-- In an orderly tree the cursor is resolved to the innermost node that it touches. -/
theorem resolve_isAt {root : Tree} (orderly : (ofRoot root).Orderly P) (pos : Nat) :
    (∀ l, l.IsAt root (min pos root.stop) → Reaches l (root.resolve pos)) ∧
    ((root.resolve pos).IsAt root (min pos root.stop) ∨ root.resolve pos = ofRoot root) := by
  have down : Descends (min pos root.stop) (ofRoot root) (root.resolve pos) :=
    descends_descend _ [] root
  constructor
  · intro l h
    exact down.through orderly h.reached h.touches h.clear
  · by_cases e : root.resolve pos = ofRoot root
    · exact .inr e
    · obtain ⟨starts, stops, plain⟩ := touches_iff.mp (down.touches.resolve_left e)
      exact .inl ⟨down.reaches, e, starts, stops, plain, down.ancestors nofun⟩

/-- The cursor is resolved to a node that it touches if it touches none of its children. -/
lemma resolve_eq {root : Tree} (orderly : (ofRoot root).Orderly P) {pos : Nat}
    (h : l.IsAt root (min pos root.stop))
    (inner : ∀ c, HasChild l c → c.focus.touches (min pos root.stop) = false) :
    root.resolve pos = l := by
  obtain ⟨through, resolved⟩ := resolve_isAt orderly pos
  have down := through l h
  rcases Relation.ReflTransGen.cases_head down with same | ⟨c, hc, below⟩
  · exact same.symm
  · rcases resolved with at' | atRoot
    · have touched := ((orderly.reaches h.reached).child hc).touches below at'.touches
      rw [inner c hc] at touched
      cases touched
    · rw [atRoot] at down
      exact absurd down.eq_ofRoot h.below

end Tree

end TypeqlAssist

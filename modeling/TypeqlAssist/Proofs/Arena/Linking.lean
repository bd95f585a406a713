import Mathlib.Data.List.Nodup
import Mathlib.Data.List.Perm.Basic
import TypeqlAssist.Tree.Arena.Builder

/-!
# The links of an arena

While a tree is built, some nodes wait in open ones for a parent. `Linked` says that all other links
agree with the lists of children, whatever the waiting nodes are, and `Linked.add` that making a
node over some of them keeps this.
-/

namespace TypeqlAssist

/-- There are no more nodes than numbers for them. -/
lemma length_le_of_nodup {l : List NodeId} {k : Nat} (nodup : l.Nodup)
    (h : ∀ c ∈ l, c.toNat < k) : l.length ≤ k := by
  have distinct : (l.map UInt32.toNat).Nodup :=
    nodup.map fun _ _ same => UInt32.toNat_inj.mp same
  have within : l.map UInt32.toNat ⊆ List.range k := by
    intro i hi
    obtain ⟨c, hc, rfl⟩ := List.mem_map.mp hi
    exact List.mem_range.mpr (h c hc)
  have le := (List.subperm_of_subset distinct within).length_le
  rwa [List.length_map, List.length_range] at le

namespace Arena

variable {a a' : Arena} {id n c : NodeId} {r q new : Record} {cs loose rest : List NodeId}

/-- A node with a record has a number below the size. -/
lemma lt_size (h : a.record? n = some r) : n.toNat < a.size :=
  (Array.getElem?_eq_some_iff.mp h).1

/-- Every number below the size is that of a node. -/
lemma exists_record (h : n.toNat < a.size) : ∃ r, a.record? n = some r :=
  ⟨_, Array.getElem?_eq_getElem h⟩

/-- Replacing a record makes no node. -/
@[simp]
lemma size_put : (a.put n r).size = a.size := by
  simp only [size, put, Array.size_setIfInBounds]

/-- A replaced record is the new one. -/
lemma record?_put_self (h : n.toNat < a.size) : (a.put n r).record? n = some r :=
  Array.getElem?_setIfInBounds_self_of_lt h

/-- Replacing a record leaves all others as they are. -/
lemma record?_put_of_ne (h : c ≠ n) : (a.put n r).record? c = a.record? c :=
  Array.getElem?_setIfInBounds_ne fun e => h (UInt32.toNat_inj.mp e).symm

/-! ## Making a node -/

/-- Linking changes the parents and indices of the given nodes, and nothing else. -/
lemma exists_link (parent : NodeId) (index : Nat) (nodup : cs.Nodup)
    (known : ∀ c ∈ cs, c.toNat < a.size) :
    ∃ a', a.link parent index cs = some a' ∧ a'.size = a.size ∧
      (∀ i c q, cs[i]? = some c → a.record? c = some q →
        a'.record? c = some { q with parent := some parent, index := index + i }) ∧
      ∀ n, n ∉ cs → a'.record? n = a.record? n := by
  induction cs generalizing a index with
  | nil => exact ⟨a, rfl, rfl, nofun, fun _ _ => rfl⟩
  | cons c cs ih =>
    obtain ⟨fresh, nodup⟩ := List.nodup_cons.mp nodup
    obtain ⟨inRange, known⟩ := List.forall_mem_cons.mp known
    obtain ⟨r, hr⟩ := exists_record inRange
    obtain ⟨a', linked, size, changed, kept⟩ :=
      ih (a := a.put c { r with parent := some parent, index }) (index + 1) nodup
        fun d hd => by rw [size_put]; exact known d hd
    refine ⟨a', by rw [link, hr]; exact linked, by rw [size, size_put], ?_, ?_⟩
    · intro i d q hd hq
      cases i with
      | zero =>
        cases hd
        cases hr.symm.trans hq
        rw [kept c fresh]
        exact record?_put_self inRange
      | succ i =>
        have ne : d ≠ c := fun e => fresh (e ▸ List.mem_of_getElem? hd)
        rw [changed i d q hd (by rw [record?_put_of_ne ne]; exact hq), Nat.add_right_comm,
          Nat.add_assoc]
    · intro n hn
      rw [kept n (List.not_mem_of_not_mem_cons hn),
        record?_put_of_ne (List.ne_of_not_mem_cons hn)]

/-- The arena `a'` has one node more than `a`, and that is the parent of its children. -/
structure Adds (a : Arena) (id : NodeId) (new : Record) (a' : Arena) : Prop where
  number : id.toNat = a.size
  size : a'.size = a.size + 1
  made : a'.record? id = some new
  linked : ∀ i c q, new.children[i]? = some c → a.record? c = some q →
    a'.record? c = some { q with parent := some id, index := i }
  kept : ∀ n, n ∉ new.children → n ≠ id → a'.record? n = a.record? n

/-- As long as numbers are left, a node can be made over any nodes that are there. -/
lemma exists_add (kind : Kind) (start stop : Nat) (room : a.size < UInt32.size) (nodup : cs.Nodup)
    (known : ∀ c ∈ cs, c.toNat < a.size) :
    ∃ id a', a.add? kind start stop cs = some (id, a') ∧
      Adds a id ⟨kind, start, stop, none, 0, cs⟩ a' := by
  have number : (UInt32.ofNat a.size).toNat = a.size := UInt32.toNat_ofNat_of_lt' room
  obtain ⟨a', linked, size, changed, kept⟩ := exists_link (UInt32.ofNat a.size) 0 nodup known
  have record (n : NodeId) (ne : n ≠ UInt32.ofNat a.size) (r : Record) :
      (⟨a'.records.push r⟩ : Arena).record? n = a'.record? n := by
    refine (Array.getElem?_push).trans (if_neg fun e => ne ?_)
    apply UInt32.toNat_inj.mp
    rw [e, number]
    exact size
  refine ⟨_, _, by rw [add?, linked]; rfl, number, ?_, ?_, ?_, ?_⟩
  · show (a'.records.push _).size = _
    rw [Array.size_push, ← size]
    rfl
  · show (a'.records.push _)[(UInt32.ofNat a.size).toNat]? = _
    rw [number, ← size]
    exact Array.getElem?_push_size
  · intro i c q hc hq
    have ne : c ≠ UInt32.ofNat a.size := by
      rintro rfl
      exact Nat.lt_irrefl _ (number ▸ lt_size hq)
    rw [record c ne, changed i c q hc hq, Nat.zero_add]
  · intro n hn ne
    rw [record n ne, kept n hn]

/-- Where the records after making a node come from. -/
lemma Adds.cases (h : Adds a id new a') (hn : a'.record? n = some r) :
    (n = id ∧ r = new) ∨
    (∃ i q, new.children[i]? = some n ∧ a.record? n = some q ∧
      r = { q with parent := some id, index := i }) ∨
    (a.record? n = some r ∧ n ∉ new.children) := by
  by_cases e : n = id
  · subst e
    exact .inl ⟨rfl, Option.some.inj (hn.symm.trans h.made)⟩
  · by_cases mem : n ∈ new.children
    · have lt : n.toNat < a.size := by
        have lt := lt_size hn
        have ne : n.toNat ≠ id.toNat := fun same => e (UInt32.toNat_inj.mp same)
        rw [h.number] at ne
        rw [h.size] at lt
        omega
      obtain ⟨i, hi⟩ := List.mem_iff_getElem?.mp mem
      obtain ⟨q, hq⟩ := exists_record lt
      exact .inr (.inl ⟨i, q, hi, hq, Option.some.inj (hn.symm.trans (h.linked i n q hi hq))⟩)
    · exact .inr (.inr ⟨(h.kept n mem e).symm.trans hn, mem⟩)

/-- The node that is made is none of those before. -/
lemma Adds.ne (h : Adds a id new a') (hn : a.record? n = some r) : n ≠ id := by
  rintro rfl
  exact Nat.lt_irrefl _ (h.number ▸ lt_size hn)

/-- Making a node changes no kind, no span and no list of children. -/
lemma Adds.old (h : Adds a id new a') (hn : a.record? n = some q) :
    ∃ r, a'.record? n = some r ∧ r.node = q.node ∧ r.children = q.children := by
  by_cases mem : n ∈ new.children
  · obtain ⟨i, hi⟩ := List.mem_iff_getElem?.mp mem
    exact ⟨_, h.linked i n q hi hn, rfl, rfl⟩
  · exact ⟨q, (h.kept n mem (h.ne hn)).trans hn, rfl, rfl⟩

/-! ## The invariant -/

/-- The links of an arena agree, and the nodes in `loose` wait for a parent. -/
structure Linked (a : Arena) (loose : List NodeId) : Prop where
  below : ∀ {n r c}, a.record? n = some r → c ∈ r.children → c.toNat < n.toNat
  child : ∀ {n r i c}, a.record? n = some r → r.children[i]? = some c →
    ∃ q, a.record? c = some q ∧ q.parent = some n ∧ q.index = i
  parent : ∀ {c q n}, a.record? c = some q → q.parent = some n →
    ∃ r, a.record? n = some r ∧ c ∈ r.children
  distinct : loose.Nodup
  free : ∀ c ∈ loose, ∃ q, a.record? c = some q ∧ q.parent = none

/-- An arena without nodes is linked. -/
lemma linked_empty : Linked ⟨#[]⟩ [] where
  below h := nomatch h
  child h := nomatch h
  parent h := nomatch h
  distinct := .nil
  free := nofun

/-- Nodes that wait for a parent are in the arena. -/
lemma Linked.known (h : Linked a loose) : ∀ c ∈ loose, c.toNat < a.size := by
  intro c hc
  obtain ⟨q, hq, _⟩ := h.free c hc
  exact lt_size hq

/-- It does not matter in which order the nodes wait, or which of them still do. -/
lemma Linked.subperm (h : Linked a loose) (less : rest.Subperm loose) : Linked a rest := by
  have ⟨l, perm, sub⟩ := less
  exact { h with
    distinct := perm.nodup (sub.nodup h.distinct)
    free := fun c hc => h.free c (less.subset hc) }

/-- A node over some of those that wait takes them off the list and waits in their place. -/
lemma Linked.add (h : Linked a (new.children ++ rest)) (add : Adds a id new a')
    (fresh : new.parent = none) : Linked a' (id :: rest) where
  below {n r c} hn hc := by
    rcases add.cases hn with ⟨rfl, rfl⟩ | ⟨i, q, _, hq, rfl⟩ | ⟨hr, _⟩
    · rw [add.number]
      exact h.known c (List.mem_append_left _ hc)
    · exact h.below hq hc
    · exact h.below hr hc
  child {n r i c} hn hc := by
    -- a child that was linked before has a parent, so it is not among those that wait
    have old {r} (hr : a.record? n = some r) (hc : r.children[i]? = some c) :
        ∃ q, a'.record? c = some q ∧ q.parent = some n ∧ q.index = i := by
      obtain ⟨q, hq, parent, index⟩ := h.child hr hc
      have taken : c ∉ new.children := by
        intro mem
        obtain ⟨q', hq', free⟩ := h.free c (List.mem_append_left _ mem)
        cases hq.symm.trans hq'
        cases free.symm.trans parent
      exact ⟨q, (add.kept c taken (add.ne hq)).trans hq, parent, index⟩
    rcases add.cases hn with ⟨rfl, rfl⟩ | ⟨_, q, _, hq, rfl⟩ | ⟨hr, _⟩
    · obtain ⟨q, hq, _⟩ := h.free c (List.mem_append_left _ (List.mem_of_getElem? hc))
      exact ⟨_, add.linked i c q hc hq, rfl, rfl⟩
    · exact old hq hc
    · exact old hr hc
  parent {c q n} hc hn := by
    rcases add.cases hc with ⟨rfl, rfl⟩ | ⟨i, q, hi, _, rfl⟩ | ⟨hq, _⟩
    · cases fresh.symm.trans hn
    · cases hn
      exact ⟨new, add.made, List.mem_of_getElem? hi⟩
    · obtain ⟨r, hr, mem⟩ := h.parent hq hn
      obtain ⟨r', hr', _, same⟩ := add.old hr
      exact ⟨r', hr', same ▸ mem⟩
  distinct := by
    -- the new number is larger than those of all nodes that wait
    refine List.nodup_cons.mpr ⟨fun mem => ?_, h.distinct.of_append_right⟩
    have lt := h.known id (List.mem_append_right _ mem)
    rw [add.number] at lt
    exact Nat.lt_irrefl _ lt
  free := by
    refine List.forall_mem_cons.mpr ⟨⟨new, add.made, fresh⟩, fun c hc => ?_⟩
    obtain ⟨q, hq, free⟩ := h.free c (List.mem_append_right _ hc)
    have stays : c ∉ new.children := fun mem => List.disjoint_of_nodup_append h.distinct mem hc
    exact ⟨q, (add.kept c stays (add.ne hq)).trans hq, free⟩

/-! ## Steps along the links -/

variable {i : Nat}

/-- A child with an index is the one recorded there. -/
lemma child?_eq_some_iff :
    a.child? n i = some (some c) ↔ ∃ r, a.record? n = some r ∧ r.children[i]? = some c := by
  simp only [child?, Option.bind_eq_bind, Option.bind_eq_some_iff, Option.pure_def,
    Option.some.injEq]

/-- The parent of a child is the node it is a child of. -/
lemma Linked.parent?_eq (h : Linked a loose) (hr : a.record? n = some r)
    (hc : r.children[i]? = some c) : a.parent? c = some (some n) := by
  obtain ⟨q, hq, parent, _⟩ := h.child hr hc
  rw [parent?, hq, ← parent]
  rfl

/-- A sibling of a child is found among the children of the same node. -/
lemma Linked.sibling?_eq (h : Linked a loose) (hr : a.record? n = some r)
    (hc : r.children[i]? = some c) (f : Nat → Option Nat) :
    a.sibling? c f = some ((f i).bind fun j => r.children[j]?) := by
  obtain ⟨q, hq, parent, index⟩ := h.child hr hc
  simp only [sibling?, hq, parent, hr, index, Option.bind_eq_bind, Option.bind_some,
    Option.pure_def]

/-- A node without a parent has no siblings. -/
lemma sibling?_of_free (hc : a.record? c = some q) (free : q.parent = none)
    (f : Nat → Option Nat) : a.sibling? c f = some none := by
  simp only [sibling?, hc, free, Option.bind_eq_bind, Option.bind_some, Option.pure_def]

end Arena

end TypeqlAssist

import TypeqlAssist.Proofs.Grammar.Reading
import TypeqlAssist.Proofs.Tree.Cursor

/-!
# The height of documents

A rule makes nodes of a height that can be read off the rule, but for the symbols nested in it.
Each level of nesting adds two levels to the tree at most: a disjunction with the conjunction in
it, an expression with the brackets or the function call in it. So the height of a document is
bounded, however long it is.
-/

namespace TypeqlAssist

namespace Tree

mutual

/-- The number of nodes on the longest way down, the node itself included. -/
def height : Tree → Nat
  | node _ _ _ cs => heightAll cs + 1

/-- The height of the highest of some trees. -/
def heightAll : List Tree → Nat
  | [] => 0
  | t :: ts => max t.height (heightAll ts)

end

/-- A node is one higher than its children. -/
@[simp]
lemma height_node (k : Kind) (a b : Nat) (cs : List Tree) :
    (node k a b cs).height = heightAll cs + 1 := rfl

/-- A row is no higher than a bound if none of its trees is. -/
lemma heightAll_le_iff {ts : List Tree} {n : Nat} : heightAll ts ≤ n ↔ ∀ t ∈ ts, t.height ≤ n := by
  induction ts with
  | nil => simp [heightAll]
  | cons t ts ih => rw [heightAll, Nat.max_le, ih, List.forall_mem_cons]

/-- Two rows put together are no higher than each. -/
lemma heightAll_append_le {ts us : List Tree} {n : Nat} (h : heightAll ts ≤ n)
    (h' : heightAll us ≤ n) : heightAll (ts ++ us) ≤ n := by
  rw [heightAll_le_iff] at h h' ⊢
  exact List.forall_mem_append.mpr ⟨h, h'⟩

/-- A row of leaves is of height one at most. -/
lemma heightAll_leaves_le (ts : List Token) : heightAll (ts.map leaf) ≤ 1 := by
  rw [heightAll_le_iff]
  intro t ht
  obtain ⟨u, _, rfl⟩ := List.mem_map.mp ht
  exact Nat.le_refl 1

/-- What is gone down is missing from the height that is left. -/
lemma Location.Reaches.length_add_height_le {l n : Location} (h : Reaches l n) :
    n.ancestors.length + n.focus.height ≤ l.ancestors.length + l.focus.height := by
  induction h with
  | refl => exact Nat.le_refl _
  | @tail m c _ step ih =>
    have lower : c.focus.height < m.focus.height := by
      have mem := step.mem
      obtain ⟨⟨k, a, b, cs⟩, path⟩ := m
      exact Nat.lt_succ_of_le (heightAll_le_iff.mp (Nat.le_refl _) c.focus mem)
    rw [step.ancestors, List.length_cons]
    omega

end Tree

namespace Grammar

open TypeqlAssist.Tree

/-- The height of what a rule makes, apart from the symbols nested in it. -/
def Rule.height : Rule → Nat
  | skip | nested _ => 0
  | take | missing _ => 1
  | stray | recover => 2
  | seq p q | branch _ p q => max p.height q.height
  | node _ p => p.height + 1
  | many _ p => p.height
  | joined p _ _ q => max p.height q.height + 1

/-- For each symbol nested in a rule, the number of nodes that the rule puts around it at most. -/
def Rule.enclosings : Rule → List Nat
  | skip | take | missing _ | stray | recover => []
  | nested _ => [0]
  | seq p q | branch _ p q => p.enclosings ++ q.enclosings
  | node _ p => p.enclosings.map (· + 1)
  | many _ p => p.enclosings
  | joined p _ _ q => (p.enclosings ++ q.enclosings).map (· + 1)

variable {eof h n : Nat} {inner : Symbol → List Token → Parsed}

/-- A node around what was read is one higher. -/
lemma height_enclosed (k : Kind) (offset : Nat) (cs : List Tree) (rest : List Token) :
    heightAll [enclosed eof k offset cs rest] = heightAll cs + 1 :=
  Nat.max_zero _

/-- An error node over tokens is of height two at most. -/
lemma wrapped_height_le (cause : Cause) (m : Nat) (ts : List Token) :
    heightAll (wrapped eof cause m ts).nodes ≤ 2 := by
  rw [wrapped, height_enclosed]
  exact Nat.succ_le_succ (heightAll_leaves_le _)

/-- What a rule reads is as high as the rule, or as a nested symbol with what is put around it. -/
theorem Rule.run_height_le (hi : ∀ s ts, heightAll (inner s ts).nodes ≤ h) {r : Rule}
    (hr : r.height ≤ n) (he : ∀ w ∈ r.enclosings, w + h ≤ n) (ts : List Token) :
    heightAll (r.run eof inner ts).nodes ≤ n := by
  induction r generalizing n ts with
  | skip => exact Nat.zero_le n
  | take =>
    cases ts with
    | nil => exact Nat.zero_le n
    | cons t ts => exact Nat.le_trans (heightAll_leaves_le [t]) hr
  | missing wanted => exact hr
  | stray =>
    cases ts with
    | nil => exact Nat.zero_le n
    | cons t ts => exact Nat.le_trans (wrapped_height_le ..) hr
  | recover =>
    cases ts with
    | nil => exact Nat.zero_le n
    | cons t ts => exact Nat.le_trans (wrapped_height_le ..) hr
  | nested s =>
    have le := he 0 (.head _)
    exact Nat.le_trans (hi s ts) (by omega)
  | seq p q ihp ihq =>
    obtain ⟨hp, hq⟩ := Nat.max_le.mp hr
    obtain ⟨ep, eq⟩ := List.forall_mem_append.mp he
    exact heightAll_append_le (ihp hp ep ts) (ihq hq eq _)
  | node k p ih =>
    -- one level of the bound is for the node itself
    obtain ⟨n, rfl⟩ := Nat.exists_eq_add_of_le' (Nat.le_of_add_left_le hr)
    have ep : ∀ w ∈ p.enclosings, w + h ≤ n := by
      intro w hw
      have le := he (w + 1) (List.mem_map_of_mem hw)
      omega
    simp only [run, height_enclosed]
    exact Nat.succ_le_succ (ih (Nat.le_of_succ_le_succ hr) ep ts)
  | branch test p q ihp ihq =>
    obtain ⟨hp, hq⟩ := Nat.max_le.mp hr
    obtain ⟨ep, eq⟩ := List.forall_mem_append.mp he
    rw [run]
    split
    · exact ihp hp ep ts
    · exact ihq hq eq ts
  | many test p ih =>
    exact repeatWhile_nodes (R := (heightAll · ≤ n)) (Nat.zero_le n)
      (fun _ _ => heightAll_append_le) (fun ts _ => ih hr he ts) _ ts
  | joined p test k q ihp ihq =>
    obtain ⟨n, rfl⟩ := Nat.exists_eq_add_of_le' (Nat.le_of_add_left_le hr)
    obtain ⟨hp, hq⟩ := Nat.max_le.mp (Nat.le_of_succ_le_succ hr)
    have below : ∀ w ∈ p.enclosings ++ q.enclosings, w + h ≤ n := by
      intro w hw
      have le := he (w + 1) (List.mem_map_of_mem hw)
      omega
    obtain ⟨ep, eq⟩ := List.forall_mem_append.mp below
    simp only [run]
    split
    · rw [height_enclosed]
      exact Nat.succ_le_succ (heightAll_append_le (ihp hp ep ts) (ihq hq eq _))
    · exact Nat.le_succ_of_le (ihp hp ep ts)

/-- A level of nesting puts two nodes around the next one at most. -/
lemma definitionOf_height (s : Symbol) :
    (definitionOf s).height ≤ 6 ∧ ∀ w ∈ (definitionOf s).enclosings, w ≤ 2 := by
  rcases s with ⟨⟨⟩⟩ | ⟨⟩ <;> decide

/-- Around the first level there are six nodes at most. -/
lemma queries_height : queries.height ≤ 10 ∧ ∀ w ∈ queries.enclosings, w ≤ 6 := by
  decide +kernel

/-- Each level of nesting adds two to the height of a symbol. -/
lemma runSymbol_height_le (levels : Nat) (s : Symbol) (ts : List Token) :
    heightAll (runSymbol definitionOf eof levels s ts).nodes ≤ 2 * levels + 6 := by
  induction levels generalizing s ts with
  | zero => exact Nat.le_trans (wrapped_height_le ..) (by omega)
  | succ levels ih =>
    obtain ⟨own, around⟩ := definitionOf_height s
    refine Rule.run_height_le ih (by omega) ?_ ts
    intro w hw
    have le := around w hw
    omega

/-- However long a document is, its nodes are no higher than its nesting may be deep, twice. -/
theorem readDocument_height_le (eof : Nat) (ts : List Token) :
    heightAll (readDocument eof ts).nodes ≤ 2 * maxNesting + 12 := by
  obtain ⟨own, around⟩ := queries_height
  refine Rule.run_height_le (runSymbol_height_le maxNesting) (by omega) ?_ ts
  intro w hw
  have le := around w hw
  omega

end Grammar

end TypeqlAssist

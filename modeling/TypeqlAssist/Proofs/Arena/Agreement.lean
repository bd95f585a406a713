import TypeqlAssist.Completion.Stored
import TypeqlAssist.Proofs.Arena.Walks
import TypeqlAssist.Schema.Stored

/-!
# Stored trees and trees

What is offered in a stored tree, and the schema that it declares, are those of the tree that it
holds. Both look only so many levels below a node, so that cutting off the rest changes nothing.
However a builder is driven, all walks in the tree that it stores end (`ofActions_coherent`).
-/

namespace TypeqlAssist

namespace Tree

/-- A tree that is cut keeps its kind. -/
@[simp]
lemma kind_cut (depth : Nat) (t : Tree) : (t.cut depth).kind = t.kind := by
  cases depth <;> rfl

/-- A tree that is cut keeps its start. -/
@[simp]
lemma start_cut (depth : Nat) (t : Tree) : (t.cut depth).start = t.start := by
  cases depth <;> rfl

/-- A tree that is cut keeps its text. -/
@[simp]
lemma textIn_cut (depth : Nat) (t : Tree) (text : Text) :
    (t.cut depth).textIn text = t.textIn text := by
  cases depth <;> rfl

/-- The children of a tree that is cut are cut one level less. -/
@[simp]
lemma children_cut (depth : Nat) (t : Tree) :
    (t.cut (depth + 1)).children = t.children.map (cut depth) := rfl

/-- A child found by its kind is found in a tree that is cut, too. -/
lemma child?_cut (depth : Nat) (t : Tree) (k : Kind) :
    (t.cut (depth + 1)).child? k = (t.child? k).map (cut depth) := by
  rw [child?, children_cut, List.find?_map]
  simp only [Function.comp_def, kind_cut]
  rfl

end Tree

open TypeqlAssist.Tree (cut)

variable {s : StoredTree} {root : Tree} {text : Text} {loose : List NodeId}

namespace Completion

/-- A node is asked about its own children only. -/
lemma consult_cut (pos : Nat) (t : Tree) (preceding : List Kind) :
    consult pos ⟨t.cut 1, preceding⟩ = consult pos ⟨t, preceding⟩ := by
  have before : ((t.cut 1).childBefore? pos).map Tree.kind = (t.childBefore? pos).map Tree.kind := by
    rw [Tree.childBefore?, Tree.children_cut, ← List.map_reverse, List.find?_map]
    simp [Function.comp_def, Tree.childBefore?]
  simp only [consult, Tree.kind_cut, Entry.rulesFor?, before]

/-- The texts of a kind in a stored tree are those in the tree that it holds. -/
lemma storedTexts_eq (held : s.arena.Holds s.root root) (linked : Arena.Linked s.arena loose)
    (kind : Kind) : storedTexts s text kind = some (textsOfKind root text kind) := by
  rw [storedTexts, StoredTree.views_eq held linked]
  simp [textsOfKind, List.filter_map, Function.comp_def]

/-- A generator offers in a stored tree what it offers in the tree. -/
lemma Generator.storedCandidates_eq (held : s.arena.Holds s.root root)
    (linked : Arena.Linked s.arena loose) (g : Generator) :
    g.storedCandidates s text = some (g.candidates root text) := by
  cases g with
  | labels => simp [storedCandidates, candidates, storedTexts_eq held linked]
  | variableNames boost => simp [storedCandidates, candidates, storedTexts_eq held linked]
  | keywords set => rfl

/-- A rule offers in a stored tree what it offers in the tree. -/
lemma Rule.storedCandidates_eq (held : s.arena.Holds s.root root)
    (linked : Arena.Linked s.arena loose) (r : Rule) (text : Text) :
    r.storedCandidates s text = some (r.candidates root text) := by
  have each : r.generators.mapM (·.storedCandidates s text) =
      some (r.generators.map (·.candidates root text)) := by
    refine mapM_eq_some_iff.mpr (List.forall₂_map_right_iff.mpr (List.forall₂_same.mpr ?_))
    exact fun g _ => g.storedCandidates_eq held linked
  simp [storedCandidates, each, candidates, List.flatMap_def]

/-- A node is asked first, and then those above it. -/
lemma climbWithin_step {pos steps : Nat} {id : NodeId} {t : Tree} {up : Option NodeId}
    {before preceding : List Kind} {rest : List Context} (held : s.arena.Holds s.root root)
    (linked : Arena.Linked s.arena loose) (seen : s.arena.view? 1 id = some (t.cut 1))
    (parent : s.arena.parent? id = some up) (kinds : s.arena.kindsBefore id = some before)
    (above : climbWithin s text pos steps (before ++ preceding) up =
      some (climb root text pos rest)) :
    climbWithin s text pos (steps + 1) preceding (some id) =
      some (climb root text pos (⟨t, preceding⟩ :: rest)) := by
  rw [climbWithin, climb, seen, Option.bind_eq_bind, Option.bind_some, consult_cut]
  cases consult pos ⟨t, preceding⟩ with
  | suppressed => rfl
  | silent => simp [parent, kinds, above]
  | fires rule =>
    have offered := rule.storedCandidates_eq held linked text
    cases continues : rule.continues <;> simp [offered, continues, parent, kinds, above]

/-- Going up along the links asks the same nodes as going up in the tree. -/
lemma climbWithin_eq {id : NodeId} {l : Tree.Location} {steps : Nat}
    (held : s.arena.Holds s.root root) (linked : Arena.Linked s.arena [s.root])
    (h : Arena.Stands s.arena s.root root id l) (enough : l.path.length < steps) (text : Text)
    (pos : Nat) (preceding : List Kind) :
    climbWithin s text pos steps preceding (some id) =
      some (climb root text pos (contextsAlong l.focus preceding l.path)) := by
  induction steps generalizing id l preceding with
  | zero => cases enough
  | succ steps ih =>
    rcases h.up held linked with ⟨path, parent, kinds⟩ | ⟨p, m, i, stands, path, parent, kinds⟩
    · rw [path]
      refine climbWithin_step held linked (h.holds held 1) parent kinds ?_
      cases steps <;> rfl
    · rw [path] at enough ⊢
      refine climbWithin_step held linked (h.holds held 1) parent kinds ?_
      exact ih stands (Nat.lt_of_succ_lt_succ enough) _

/-- What is offered in a stored tree is offered in the tree that it holds. -/
theorem completeStored_eq (held : s.arena.Holds s.root root)
    (linked : Arena.Linked s.arena [s.root]) (text : Text) (pos : Nat) :
    completeStored s text pos = some (complete root text pos) := by
  obtain ⟨id, resolved, stands⟩ := StoredTree.exists_resolve held linked (min pos text.byteSize)
  have kinds := stands.kindsUpTo held linked (min pos text.byteSize)
  have enough : (root.resolve (min pos text.byteSize)).path.length < s.arena.size := by
    have le := stands.path_le linked
    have lt := linked.known s.root (.head _)
    omega
  have climbed := climbWithin_eq held linked stands enough text (min pos text.byteSize)
  simp only [completeStored, climbStored, resolved, kinds, climbed, Option.bind_eq_bind,
    Option.bind_some, complete, contextsAt]
  cases climb root text (min pos text.byteSize) _ <;> rfl

end Completion

namespace Schema

/-- A type reference is read from its children. -/
lemma labelOfRef_cut (depth : Nat) (t : Tree) :
    labelOfRef (t.cut (depth + 1)) text = labelOfRef t text := by
  rw [labelOfRef, labelOfRef, Tree.children_cut, List.filter_map, List.map_map]
  simp only [Function.comp_def, Tree.kind_cut, Tree.textIn_cut]

/-- A constraint is read from its children and those of its type reference. -/
lemma constraint?_cut (t : Tree) : constraint? (t.cut 2) text = constraint? t text := by
  simp only [constraint?, Tree.children_cut, Tree.child?_cut, List.head?_map]
  cases t.children.head? with
  | none => rfl
  | some keyword =>
    cases t.child? .typeRef with
    | none => rfl
    | some ref => simp [labelOfRef_cut]

/-- Constraints are read three levels down. -/
lemma constraintsOf_cut (t : Tree) : constraintsOf (t.cut 3) text = constraintsOf t text := by
  rw [constraintsOf, constraintsOf, Tree.children_cut, List.filter_map, List.filterMap_map]
  simp only [Function.comp_def, Tree.kind_cut, constraint?_cut]

/-- A definition is read three levels down. -/
lemma record_cut (s : Schema) (t : Tree) : record text s (t.cut 3) = record text s t := by
  have kind : isAttributeDefinition s (t.cut 3) = isAttributeDefinition s t := by
    funext label text
    rw [isAttributeDefinition, isAttributeDefinition, Tree.child?_cut]
    cases t.child? .rootKind <;> simp
  rw [record, record, changesOf, changesOf, Tree.child?_cut, constraintsOf_cut, kind]
  cases t.child? .label <;> simp

/-- Whether a query defines types is read one level down. -/
lemma isDefining_cut (depth : Nat) (t : Tree) : isDefining (t.cut (depth + 1)) = isDefining t := by
  rw [isDefining, isDefining, Tree.children_cut, List.head?_map]
  cases t.children.head? <;> simp

/-- The definitions of a stored tree are those of the tree that it holds, read three levels down. -/
lemma storedDefinables_eq (held : s.arena.Holds s.root root)
    (linked : Arena.Linked s.arena loose) :
    storedDefinables s = some ((definables root).map (cut 3)) := by
  rw [storedDefinables, StoredTree.views_eq held linked, definables, List.map_flatMap]
  simp only [Option.bind_eq_bind, Option.bind_some, List.filter_map, List.flatMap_map,
    Function.comp_def, Tree.kind_cut, isDefining_cut, Tree.children_cut]
  rfl

/-- A stored tree declares the schema of the tree that it holds. -/
theorem extractStored_eq (held : s.arena.Holds s.root root)
    (linked : Arena.Linked s.arena loose) (text : Text) :
    extractStored s text = some (extract root text) := by
  rw [extractStored, storedDefinables_eq held linked, extract]
  simp only [Option.bind_eq_bind, Option.bind_some, List.foldl_map, record_cut]
  rfl

end Schema

/-! ## However a builder is driven -/

namespace StoredTree

open Arena

/--
Whatever the steps of a builder are, as long as there is a number for every node they make: the
arena is coherent, visiting the tree comes by every node below the root once, and all walks along
its links end inside the arena, with the results of the walks in the tree of the same steps.
-/
theorem ofActions_coherent (actions : List Tree.Builder.Action) (length : Nat)
    (room : (SyntaxTree.ofActions actions length).size < UInt32.size) :
    ∃ s, ofActions actions length = some s ∧
      s.arena.size = (SyntaxTree.ofActions actions length).size ∧
      Coherent s.arena ∧
      (∃ ids, s.preorder = some ids ∧ ids.Nodup ∧ ∀ m, m ∈ ids ↔ Reaches s.arena s.root m) ∧
      (∀ n : NodeId, n.toNat < s.arena.size → Walkable s.arena n) ∧
      (∀ pos, ∃ id, s.resolve pos = some id ∧
        s.arena.Holds id ((SyntaxTree.ofActions actions length).root.resolve pos).focus) ∧
      (∀ text pos, Completion.completeStored s text pos =
        some (Completion.complete (SyntaxTree.ofActions actions length).root text pos)) ∧
      ∀ text, Schema.extractStored s text =
        some (Schema.extract (SyntaxTree.ofActions actions length).root text) := by
  obtain ⟨s, built, linked, held, size⟩ := exists_ofActions actions length room
  obtain ⟨ids, visited, _⟩ := linked.exists_visit held
  obtain ⟨nodup, reached⟩ := linked.coherent.visitWithin visited (List.pairwise_singleton _ _)
  refine ⟨s, built, size, linked.coherent, ⟨ids, visited, nodup, fun m => ?_⟩,
    fun n lt => linked.walkable lt, fun pos => ?_,
    Completion.completeStored_eq held linked, Schema.extractStored_eq held linked⟩
  · rw [reached]
    simp
  · obtain ⟨id, resolved, stands⟩ := exists_resolve held linked pos
    exact ⟨id, resolved, stands.holds held⟩

/-- Steps that close too much, leave a token outside and a node open, and adopt a child. -/
theorem ofActions_coherent_unbalanced :
    ∃ s, ofActions
        [.finish none, .token ⟨.var, 7, 3⟩, .start .query 0, .token ⟨.kwMatch, 0, 5⟩,
          .startAt 0 .queryPipeline, .token ⟨.var, 6, 8⟩, .finish (some 9), .startAt 5 .statement] 9
        = some s ∧ s.arena.size = 6 ∧ Coherent s.arena := by
  obtain ⟨s, built, size, coherent, _⟩ := ofActions_coherent
    [.finish none, .token ⟨.var, 7, 3⟩, .start .query 0, .token ⟨.kwMatch, 0, 5⟩,
      .startAt 0 .queryPipeline, .token ⟨.var, 6, 8⟩, .finish (some 9), .startAt 5 .statement] 9
    (by decide)
  exact ⟨s, built, size.trans (by decide), coherent⟩

end StoredTree

end TypeqlAssist

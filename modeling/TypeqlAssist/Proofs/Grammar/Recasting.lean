import Mathlib.Order.MinMax
import TypeqlAssist.Proofs.Grammar.Inner

/-!
# Reading recast tokens

No question that the grammar asks tells `redefine` from `define`, and it asks for no offsets. So
tokens that are moved in order, and some of which turn from `define` into `redefine`, are read as
the same nodes and faults, moved and changed in the same way (`readDocument_recast`).
-/

namespace TypeqlAssist

/-- A kind stays as it is, or a `define` turns into `redefine`. -/
inductive Kind.Recasts : Kind → Kind → Prop where
  | same (k : Kind) :
    Recasts k k
  | redefine :
    Recasts .kwDefine .kwRedefine

/-- What is the same of both keywords is the same of all kinds. -/
lemma Kind.Recasts.apply_eq {α : Sort*} {f : Kind → α} {k k' : Kind} (h : Recasts k k')
    (same : f .kwRedefine = f .kwDefine) : f k' = f k := by
  cases h with
  | same => rfl
  | redefine => exact same

/-- A change of tokens: offsets move in order, and only a `define` may turn into `redefine`. -/
structure Recast where
  /-- The kind of what starts at an offset. -/
  kind : Nat → Kind → Kind
  offset : Nat → Nat
  mono : Monotone offset
  recasts : ∀ a k, Kind.Recasts k (kind a k)

namespace Recast

/-- A token after the change. -/
def token (c : Recast) (t : Token) : Token :=
  ⟨c.kind t.start t.kind, c.offset t.start, c.offset t.stop⟩

variable (c : Recast)

/-- Only a `define` may change its kind. -/
lemma kind_of_ne {k : Kind} (hk : k ≠ .kwDefine) (a : Nat) : c.kind a k = k := by
  have h := c.recasts a k
  generalize c.kind a k = k' at h
  cases h with
  | same => rfl
  | redefine => exact absurd rfl hk

/-- The later of two offsets stays the later one. -/
lemma offset_max (m n : Nat) : c.offset (max m n) = max (c.offset m) (c.offset n) :=
  c.mono.map_max

/-- A default that moves along with the optional value. -/
lemma getD_map_offset (n : Nat) (o : Option Nat) :
    (o.map c.offset).getD (c.offset n) = c.offset (o.getD n) := by
  cases o <;> rfl

end Recast

namespace Tree

mutual

/-- The tree over changed tokens. -/
def recast (c : Recast) : Tree → Tree
  | node k a b cs => node (c.kind a k) (c.offset a) (c.offset b) (recastAll c cs)

/-- The trees over changed tokens. -/
def recastAll (c : Recast) : List Tree → List Tree
  | [] => []
  | t :: ts => t.recast c :: recastAll c ts

end

variable (c : Recast)

/-- Trees are changed one by one. -/
lemma recastAll_eq_map (ts : List Tree) : recastAll c ts = ts.map (recast c) := by
  induction ts with
  | nil => rfl
  | cons t ts ih => rw [recastAll, ih, List.map_cons]

/-- A node changes with its children. -/
@[simp]
lemma recast_node (k : Kind) (a b : Nat) (cs : List Tree) :
    (node k a b cs).recast c =
      node (c.kind a k) (c.offset a) (c.offset b) (cs.map (recast c)) := by
  rw [recast, recastAll_eq_map]

/-- A tree changes its kind as a token at its start would. -/
@[simp]
lemma kind_recast (t : Tree) : (t.recast c).kind = c.kind t.start t.kind := by
  cases t
  rfl

/-- A tree starts where its start is moved to. -/
@[simp]
lemma start_recast (t : Tree) : (t.recast c).start = c.offset t.start := by
  cases t
  rfl

/-- A tree stops where its stop is moved to. -/
@[simp]
lemma stop_recast (t : Tree) : (t.recast c).stop = c.offset t.stop := by
  cases t
  rfl

/-- The children of a tree change one by one. -/
@[simp]
lemma children_recast (t : Tree) : (t.recast c).children = t.children.map (recast c) := by
  cases t
  rw [recast_node]
  rfl

/-- The leaves of changed tokens are the changed leaves. -/
lemma map_leaf_recast (ts : List Token) :
    (ts.map c.token).map leaf = (ts.map leaf).map (recast c) := by
  rw [List.map_map, List.map_map]
  rfl

/-- A node around changed trees is the changed node. -/
lemma enclose_recast {k : Kind} (hk : k ≠ .kwDefine) (offset : Nat) (cs : List Tree)
    (extent : Option Nat) :
    enclose k (c.offset offset) (cs.map (recast c)) (extent.map c.offset) =
      (enclose k offset cs extent).recast c := by
  have first : ((cs.map (recast c)).head?.map start).getD (c.offset offset) =
      c.offset ((cs.head?.map start).getD offset) := by
    rw [← c.getD_map_offset, List.head?_map, Option.map_map, Option.map_map]
    exact congrArg (Option.getD · _) (Option.map_congr fun t _ => start_recast c t)
  have last (n : Nat) : ((cs.map (recast c)).getLast?.map stop).getD (c.offset n) =
      c.offset ((cs.getLast?.map stop).getD n) := by
    rw [← c.getD_map_offset, List.getLast?_map, Option.map_map, Option.map_map]
    exact congrArg (Option.getD · _) (Option.map_congr fun t _ => stop_recast c t)
  simp only [enclose, first, last, c.getD_map_offset, c.offset_max, recast_node, c.kind_of_ne hk]

end Tree

namespace Grammar

open TypeqlAssist.Tree

/-! ## Questions -/

/-- The question does not tell `redefine` from `define`. -/
def Blind (test : Test) : Prop :=
  ∀ k ∈ none :: Kind.all.map some,
    test ⟨some .kwRedefine, k⟩ = test ⟨some .kwDefine, k⟩ ∧
    test ⟨k, some .kwRedefine⟩ = test ⟨k, some .kwDefine⟩

instance (test : Test) : Decidable (Blind test) :=
  inferInstanceAs (Decidable (∀ k ∈ none :: Kind.all.map some,
    test ⟨some .kwRedefine, k⟩ = test ⟨some .kwDefine, k⟩ ∧
    test ⟨k, some .kwRedefine⟩ = test ⟨k, some .kwDefine⟩))

/-- The questions that a rule asks. -/
def Rule.tests : Rule → List Test
  | skip | take | missing _ | stray | recover | nested _ => []
  | seq p q => p.tests ++ q.tests
  | node _ p => p.tests
  | branch test p q => test :: (p.tests ++ q.tests)
  | many test p => test :: p.tests
  | joined p test _ q => test :: (p.tests ++ q.tests)

/-- No question of the rules of a document tells `redefine` from `define`. -/
lemma blind_queries : ∀ test ∈ queries.tests, Blind test := by
  decide +kernel

/-- No question of the rules of a symbol tells `redefine` from `define`. -/
lemma blind_definitionOf (s : Symbol) : ∀ test ∈ (definitionOf s).tests, Blind test := by
  rcases s with ⟨⟨⟩⟩ | ⟨⟩ <;> decide +kernel

variable {c : Recast} {eof : Nat} {inner inner' : Symbol → List Token → Parsed}

/-- A blind question has the same answer after the change. -/
lemma Blind.recast {test : Test} (h : Blind test) (ts : List Token) :
    test (.of (ts.map c.token)) = test (.of ts) := by
  have every (o : Option Kind) : o ∈ none :: Kind.all.map some := by
    cases o with
    | none => exact .head _
    | some k => exact .tail _ (List.mem_map_of_mem k.mem_all)
  match ts with
  | [] => rfl
  | [t] =>
    exact (c.recasts t.start t.kind).apply_eq (f := fun k => test ⟨some k, none⟩) (h _ (every _)).1
  | t :: u :: ts =>
    calc
      _ = test ⟨some t.kind, some (c.kind u.start u.kind)⟩ :=
        (c.recasts t.start t.kind).apply_eq (f := fun k => test ⟨some k, _⟩) (h _ (every _)).1
      _ = test ⟨some t.kind, some u.kind⟩ :=
        (c.recasts u.start u.kind).apply_eq (f := fun k => test ⟨_, some k⟩) (h _ (every _)).2

/-! ## Readings -/

/-- The same fault at its offsets after the change. -/
def Fault.recast (c : Recast) (f : Fault) : Fault :=
  ⟨f.cause, c.offset f.start, c.offset f.stop⟩

/-- What was read, after the change. -/
def Parsed.recast (c : Recast) (a : Parsed) : Parsed :=
  ⟨a.nodes.map (Tree.recast c), a.faults.map (Fault.recast c), a.rest.map c.token⟩

/-- One reading after another changes as both do. -/
lemma Parsed.recast_followedBy (c : Recast) (a b : Parsed) :
    (a.followedBy b).recast c = (a.recast c).followedBy (b.recast c) := by
  rw [recast, followedBy, List.map_append, List.map_append]
  rfl

/-- The next token starts where its start is moved to. -/
lemma offsetOf_recast (ts : List Token) :
    offsetOf (c.offset eof) (ts.map c.token) = c.offset (offsetOf eof ts) := by
  cases ts <;> rfl

/-- A node around what is read of changed tokens is the changed node. -/
lemma enclosed_recast {k : Kind} (hk : k ≠ .kwDefine) (offset : Nat) (cs : List Tree)
    (rest : List Token) :
    enclosed (c.offset eof) k (c.offset offset) (cs.map (Tree.recast c)) (rest.map c.token) =
      (enclosed eof k offset cs rest).recast c := by
  have last : isClosedBy k ((cs.map (Tree.recast c)).getLast?.map Tree.kind) =
      isClosedBy k (cs.getLast?.map Tree.kind) := by
    rw [List.getLast?_map]
    cases cs.getLast? with
    | none => rfl
    | some t =>
      simp only [Option.map_some, kind_recast]
      exact (c.recasts _ _).apply_eq (f := fun k' => isClosedBy k (some k')) rfl
  simp only [enclosed, List.isEmpty_map, last]
  rw [← enclose_recast c hk]
  split <;> rfl

/-- A gap in front of changed tokens is the changed gap. -/
lemma absent_recast (wanted : Wanted) (ts : List Token) :
    absent (c.offset eof) wanted (ts.map c.token) = (absent eof wanted ts).recast c := by
  have error := c.kind_of_ne (k := .error) (by decide)
  simp only [absent, offsetOf_recast, Parsed.recast, List.map_cons, List.map_nil, recast_node,
    Fault.recast, error]

/-- An error node over changed tokens is the changed error node. -/
lemma wrapped_recast (cause : Cause) (n : Nat) (ts : List Token) :
    wrapped (c.offset eof) cause n (ts.map c.token) = (wrapped eof cause n ts).recast c := by
  have last (m : Nat) : (((ts.take n).map c.token).getLast?.map (·.stop)).getD (c.offset m) =
      c.offset (((ts.take n).getLast?.map (·.stop)).getD m) := by
    rw [← c.getD_map_offset, List.getLast?_map, Option.map_map, Option.map_map]
    rfl
  have error : Kind.error ≠ .kwDefine := by decide
  simp only [wrapped, ← List.map_take, ← List.map_drop, offsetOf_recast, map_leaf_recast,
    enclosed_recast error, last, Parsed.recast, List.map_cons, List.map_nil, Fault.recast]

/-- Recovery up to a stop takes as many of the changed tokens. -/
lemma lengthBeforeStop_recast (ts : List Token) :
    lengthBeforeStop (ts.map c.token) = lengthBeforeStop ts := by
  induction ts with
  | nil => rfl
  | cons t ts ih =>
    rw [List.map_cons, lengthBeforeStop, lengthBeforeStop, ih]
    exact (c.recasts t.start t.kind).apply_eq (f := fun k =>
      if k == .semicolon || isRecoveryPoint k then 0 else lengthBeforeStop ts + 1) rfl

/-- Recovery through a stop takes as many of the changed tokens. -/
lemma lengthThroughStop_recast (ts : List Token) :
    lengthThroughStop (ts.map c.token) = lengthThroughStop ts := by
  induction ts with
  | nil => rfl
  | cons t ts ih =>
    rw [List.map_cons, lengthThroughStop, lengthThroughStop, ih]
    exact (c.recasts t.start t.kind).apply_eq (f := fun k => if isRecoveryPoint k then 0
      else if k == .semicolon then 1 else lengthThroughStop ts + 1) rfl

/-- Recovery takes as many of the changed tokens. -/
lemma recoveryLength_recast (ts : List Token) :
    recoveryLength (ts.map c.token) = recoveryLength ts := by
  cases ts with
  | nil => rfl
  | cons t ts =>
    rw [List.map_cons, recoveryLength, recoveryLength, lengthThroughStop_recast]
    exact (c.recasts t.start t.kind).apply_eq (f := fun k =>
      if k == .semicolon then 1 else lengthThroughStop ts + 1) rfl

/-- A loop takes the same turns over changed tokens if its test is blind to the change. -/
lemma repeatWhile_recast {test : Test} (blind : Blind test) {read read' : List Token → Parsed}
    (h : ∀ ts, read' (ts.map c.token) = (read ts).recast c) (fuel : Nat) (ts : List Token) :
    repeatWhile test read' fuel (ts.map c.token) = (repeatWhile test read fuel ts).recast c := by
  induction fuel generalizing ts with
  | zero => rfl
  | succ fuel ih =>
    rw [repeatWhile, repeatWhile, blind.recast]
    split
    · rw [Parsed.recast_followedBy, ← ih, h]
      rfl
    · rfl

/-- A rule of blind questions reads as before the change, if the productions further down do. -/
theorem Rule.run_recast (hi : ∀ s ts, inner' s (ts.map c.token) = (inner s ts).recast c)
    {r : Rule} (blind : ∀ test ∈ r.tests, Blind test) (hk : ∀ k ∈ r.kinds, k.isToken = false)
    (ts : List Token) :
    r.run (c.offset eof) inner' (ts.map c.token) = (r.run eof inner ts).recast c := by
  have production {k : Kind} (hk : k.isToken = false) : k ≠ .kwDefine := by
    rintro rfl
    cases hk
  induction r generalizing ts with
  | skip => rfl
  | take => cases ts <;> rfl
  | missing wanted => exact absent_recast wanted ts
  | stray =>
    cases ts with
    | nil => rfl
    | cons t ts => exact wrapped_recast _ _ (t :: ts)
  | recover =>
    cases ts with
    | nil => rfl
    | cons t ts =>
      have length := recoveryLength_recast (c := c) (t :: ts)
      rw [List.map_cons] at length ⊢
      rw [run, length]
      exact wrapped_recast _ _ (t :: ts)
  | nested s => exact hi s ts
  | seq p q ihp ihq =>
    obtain ⟨bp, bq⟩ := List.forall_mem_append.mp blind
    obtain ⟨hp, hq⟩ := List.forall_mem_append.mp hk
    simp only [run]
    rw [ihp bp hp, Parsed.recast_followedBy, ← ihq bq hq]
    rfl
  | node k p ih =>
    obtain ⟨hk, hp⟩ := List.forall_mem_cons.mp hk
    simp only [run]
    rw [ih blind hp, offsetOf_recast]
    simp only [Parsed.recast, enclosed_recast (production hk), List.map_cons, List.map_nil]
  | branch test p q ihp ihq =>
    obtain ⟨bt, bpq⟩ := List.forall_mem_cons.mp blind
    obtain ⟨bp, bq⟩ := List.forall_mem_append.mp bpq
    obtain ⟨hp, hq⟩ := List.forall_mem_append.mp hk
    rw [run, run, bt.recast]
    split
    · exact ihp bp hp ts
    · exact ihq bq hq ts
  | many test p ih =>
    obtain ⟨bt, bp⟩ := List.forall_mem_cons.mp blind
    rw [run, run, List.length_map]
    exact repeatWhile_recast bt (ih bp hk) _ ts
  | joined p test k q ihp ihq =>
    obtain ⟨bt, bpq⟩ := List.forall_mem_cons.mp blind
    obtain ⟨bp, bq⟩ := List.forall_mem_append.mp bpq
    obtain ⟨hk, hpq⟩ := List.forall_mem_cons.mp hk
    obtain ⟨hp, hq⟩ := List.forall_mem_append.mp hpq
    have both : ((p.run eof inner ts).recast c).followedBy
        (q.run (c.offset eof) inner' ((p.run eof inner ts).recast c).rest) =
        ((p.run eof inner ts).followedBy
          (q.run eof inner (p.run eof inner ts).rest)).recast c := by
      rw [Parsed.recast_followedBy, ← ihq bq hq]
      rfl
    -- the question is asked of what the first part leaves, so it has the same answer
    have look : test (.of ((p.run eof inner ts).recast c).rest) =
        test (.of (p.run eof inner ts).rest) := bt.recast _
    simp only [run]
    rw [ihp bp hp, look, both, offsetOf_recast]
    split
    · simp only [Parsed.recast, enclosed_recast (production hk), List.map_cons, List.map_nil]
    · rfl

/-- A symbol reads changed tokens as the changed nodes, with any number of levels left. -/
lemma runSymbol_recast (levels : Nat) (s : Symbol) (ts : List Token) :
    runSymbol definitionOf (c.offset eof) levels s (ts.map c.token) =
      (runSymbol definitionOf eof levels s ts).recast c := by
  induction levels generalizing s ts with
  | zero =>
    rw [runSymbol, cutOff, lengthBeforeStop_recast]
    exact wrapped_recast _ _ ts
  | succ levels ih => exact Rule.run_recast ih (blind_definitionOf s) (isToken_kinds.2 s) ts

/-- A document of changed tokens is read as before the change. -/
theorem readDocument_recast (c : Recast) (eof : Nat) (ts : List Token) :
    readDocument (c.offset eof) (ts.map c.token) = (readDocument eof ts).recast c :=
  Rule.run_recast (runSymbol_recast maxNesting) blind_queries isToken_kinds.1 ts

end Grammar

end TypeqlAssist

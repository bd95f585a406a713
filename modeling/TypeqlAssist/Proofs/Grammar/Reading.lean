import TypeqlAssist.Document
import TypeqlAssist.Proofs.Token.Spacing
import TypeqlAssist.Proofs.Tree.Contents

/-!
# What every rule keeps

A relation that every step of reading keeps holds of whatever a rule reads (`Rule.run_kept`). The
first one is `Reading`: whether the input is well formed or not, the tokens in the nodes followed by
the tokens left are the tokens that were there, the nodes are laid out between the first token and
the first one left, and the faults are the error nodes among the nodes, in order. No property of the
grammar is used but that `error` is not the kind of a production.
-/

namespace TypeqlAssist

open Grammar TypeqlAssist.Tree

variable {P : Nat → Prop} {eof lo : Nat} {ts us : List Token}

/-- Spaced tokens are spaced from the first one on. -/
lemma Spaced.tight (h : Spaced P eof lo ts) :
    lo ≤ offsetOf eof ts ∧ Spaced P eof (offsetOf eof ts) ts := by
  cases h with
  | nil le => exact ⟨le, .nil (Nat.le_refl _)⟩
  | cons le lt pa pb h => exact ⟨le, .cons (Nat.le_refl _) lt pa pb h⟩

/-- The next token starts at a boundary, if the input ends at one. -/
lemma Spaced.boundary (h : Spaced P eof lo ts) (peof : P eof) : P (offsetOf eof ts) := by
  cases h with
  | nil => exact peof
  | cons _ _ pa _ _ => exact pa

/-- Spaced tokens may be held to another condition on their ends. -/
lemma Spaced.mono {Q : Nat → Prop} (h : Spaced P eof lo ts)
    (ends : ∀ t ∈ ts, Q t.start ∧ Q t.stop) : Spaced Q eof lo ts := by
  induction h with
  | nil le => exact .nil le
  | cons le lt _ _ _ ih =>
    obtain ⟨first, rest⟩ := List.forall_mem_cons.mp ends
    exact .cons le lt first.1 first.2 (ih rest)

/-- The leaves of the first of some spaced tokens are laid out in front of the rest. -/
lemma Spaced.leaves (h : Spaced P eof lo (ts ++ us)) :
    Laid P lo (ts.map leaf) (offsetOf eof us) ∧ Spaced P eof (offsetOf eof us) us := by
  induction ts generalizing lo with
  | nil =>
    obtain ⟨le, h⟩ := h.tight
    exact ⟨.nil le, h⟩
  | cons t ts ih =>
    cases h with
    | cons le lt pa pb h =>
      obtain ⟨laid, h⟩ := ih h
      exact ⟨.cons le pa pb (.nil (Nat.le_of_lt lt)) laid, h⟩

namespace Grammar

/-! ## Faults between two offsets -/

/-- Faults that stand in order between two offsets, with ends that satisfy `P`. -/
inductive Ranged (P : Nat → Prop) : Nat → List Fault → Nat → Prop where
  | nil {lo hi} :
    lo ≤ hi →
    Ranged P lo [] hi
  | cons {lo hi f fs} :
    lo ≤ f.start →
    f.start ≤ f.stop →
    P f.start →
    P f.stop →
    Ranged P f.stop fs hi →
    Ranged P lo (f :: fs) hi

variable {mid hi : Nat} {fs gs : List Fault}

/-- Faults in order are followed by faults in order. -/
lemma Ranged.append (h : Ranged P lo fs mid) (g : Ranged P mid gs hi) :
    Ranged P lo (fs ++ gs) hi := by
  induction h with
  | nil le =>
    cases g with
    | nil le' => exact .nil (Nat.le_trans le le')
    | cons le' order pa pb g => exact .cons (Nat.le_trans le le') order pa pb g
  | cons le order pa pb _ ih => exact .cons le order pa pb (ih g)

/-- Every fault of a row starts after the row does, and its ends satisfy `P`. -/
lemma Ranged.of_mem {f : Fault} (h : Ranged P lo fs hi) (m : f ∈ fs) :
    lo ≤ f.start ∧ f.start ≤ f.stop ∧ P f.start ∧ P f.stop := by
  induction h with
  | nil => cases m
  | cons le order pa pb _ ih =>
    rcases List.mem_cons.mp m with rfl | m
    · exact ⟨le, order, pa, pb⟩
    · obtain ⟨le', h⟩ := ih m
      exact ⟨by omega, h⟩

/-- Faults in order are sorted by their starts, and by their stops where the starts are equal. -/
lemma Ranged.pairwise (h : Ranged P lo fs hi) :
    fs.Pairwise fun f g => Document.faultLE f g = true := by
  induction h with
  | nil => exact .nil
  | @cons lo hi f fs _ order _ _ rest ih =>
    refine .cons ?_ ih
    intro g m
    obtain ⟨le, order', _, _⟩ := rest.of_mem m
    have before : f.start < g.start ∨ f.start = g.start ∧ f.stop ≤ g.stop := by omega
    simpa [Document.faultLE] using before

/-! ## The relation between tokens and what was read from them -/

/-- What was read from some tokens keeps the tokens, their order and their faults. -/
structure Reading (P : Nat → Prop) (eof : Nat) (tokens : List Token) (a : Parsed) : Prop where
  lossless : tokensOf a.nodes ++ a.rest = tokens
  spaced : Spaced P eof (offsetOf eof a.rest) a.rest
  laid : Laid P (offsetOf eof tokens) a.nodes (offsetOf eof a.rest)
  ranged : Ranged P (offsetOf eof tokens) a.faults (offsetOf eof a.rest)
  faults : a.faults.map (fun f => (f.start, f.stop)) = (faultsOf a.nodes).map faultSpan

variable {a b : Parsed}

/-- What is left is the end of the tokens. -/
lemma Reading.suffix (h : Reading P eof ts a) : a.rest <:+ ts :=
  ⟨_, h.lossless⟩

/-- Reading nothing is a reading. -/
lemma Reading.nothing (h : Spaced P eof (offsetOf eof ts) ts) : Reading P eof ts ⟨[], [], ts⟩ where
  lossless := rfl
  spaced := h
  laid := .nil (Nat.le_refl _)
  ranged := .nil (Nat.le_refl _)
  faults := rfl

/-- Reading a token is a reading, of its leaf. -/
lemma Reading.leaf {t : Token} (h : Spaced P eof (offsetOf eof (t :: ts)) (t :: ts)) :
    Reading P eof (t :: ts) ⟨[leaf t], [], ts⟩ := by
  have width : ∀ u ∈ [t], u.start < u.stop :=
    fun u m => h.width u (List.mem_of_mem_head? (List.mem_singleton.mp m ▸ rfl))
  obtain ⟨laid, spaced⟩ := @Spaced.leaves P eof _ [t] ts h
  exact {
    lossless := congrArg (· ++ ts) (tokensOf_leaves width)
    spaced := spaced
    laid := laid
    ranged := .nil laid.le
    faults := congrArg (·.map faultSpan) (faultsOf_leaves width).symm }

/-- One reading after another is a reading. -/
lemma Reading.followedBy (h : Reading P eof ts a) (g : Reading P eof a.rest b) :
    Reading P eof ts (a.followedBy b) where
  lossless := by
    have e := h.lossless
    rw [← g.lossless] at e
    rw [← e, Parsed.followedBy, tokensOf_append, List.append_assoc]
  spaced := g.spaced
  laid := h.laid.append g.laid
  ranged := h.ranged.append g.ranged
  faults := by
    rw [Parsed.followedBy, faultsOf_append, List.map_append, List.map_append, h.faults, g.faults]

/-- A node without children has no width. -/
lemma enclosed_nil {k : Kind} {offset : Nat} (h : ts = [] → offset = eof) :
    enclosed eof k offset [] ts = node k offset offset [] := by
  unfold enclosed enclose
  cases ts with
  | nil => cases h rfl; cases isOpenEnded k <;> simp [isClosedBy]
  | cons t ts => simp

/-- What a node is, apart from where it stops. -/
lemma enclosed_eq (eof : Nat) (k : Kind) (offset : Nat) (cs : List Tree) (rest : List Token) :
    ∃ b, enclosed eof k offset cs rest = node k ((cs.head?.map start).getD offset) b cs :=
  ⟨_, rfl⟩

/-- A node over trees that are laid out is laid out with them. -/
lemma laid_enclosed {k : Kind} {cs : List Tree} {rest : List Token}
    (h : Laid P lo cs (offsetOf eof rest)) (plo : P lo) (peof : P eof) :
    Laid P lo [enclosed eof k lo cs rest] (offsetOf eof rest) := by
  apply h.enclose plo
  intro e m
  split at m
  next stays =>
    -- an open node reaches to the end, which is where the next token would start
    cases rest with
    | nil => cases m; exact ⟨rfl, peof⟩
    | cons t ts => simp at stays
  next => cases m

/-- What was read may be enclosed in a node that is no error. -/
lemma Reading.enclosed {k : Kind} (hk : k ≠ .error) (peof : P eof)
    (plo : P (offsetOf eof ts)) (h : Reading P eof ts a) :
    Reading P eof ts
      ⟨[enclosed eof k (offsetOf eof ts) a.nodes a.rest], a.faults, a.rest⟩ where
  lossless := by
    refine Eq.trans ?_ h.lossless
    obtain ⟨b, e⟩ := enclosed_eq eof k (offsetOf eof ts) a.nodes a.rest
    simp only [e]
    rw [tokensOf_node]
    intro empty
    -- with no node nothing was read, so that at the end of the input the node starts there
    have same := h.lossless
    rw [empty, tokensOf_nil, List.nil_append] at same
    rw [empty, enclosed_nil (fun nil => by rw [← same, nil]; rfl)] at e
    injection e with _ e1 e2
    rw [empty, ← e1, ← e2]
  spaced := h.spaced
  laid := laid_enclosed h.laid plo peof
  ranged := h.ranged
  faults := by
    obtain ⟨b, e⟩ := enclosed_eq eof k (offsetOf eof ts) a.nodes a.rest
    rw [h.faults, e, faultsOf_node hk]

/-- Something absent is a reading, of a gap in front of the next token. -/
lemma Reading.absent {wanted : Wanted} (peof : P eof) (h : Spaced P eof (offsetOf eof ts) ts) :
    Reading P eof ts (absent eof wanted ts) where
  lossless := congrArg (· ++ ts) (tokensOf_node fun _ => rfl)
  spaced := h
  laid := by
    have p := h.boundary peof
    exact .cons (Nat.le_refl _) p p (.nil (Nat.le_refl _)) (.nil (Nat.le_refl _))
  ranged := by
    have p := h.boundary peof
    exact .cons (Nat.le_refl _) (Nat.le_refl _) p p (.nil (Nat.le_refl _))
  faults := by
    simp [Grammar.absent, faultsOf, isFault, faultSpan, lastStop]

/-- A row of leaves stops with its last token. -/
lemma lastStop_leaves (n : Nat) (ts : List Token) :
    lastStop n (ts.map leaf) = (ts.getLast?.map (·.stop)).getD n := by
  rw [lastStop, List.getLast?_map, Option.map_map]
  rfl

/-- A row of leaves starts with the first token, if there is one. -/
lemma start_leaves (eof : Nat) (ts us : List Token) :
    ((ts.map leaf).head?.map start).getD (offsetOf eof (ts ++ us)) = offsetOf eof (ts ++ us) := by
  cases ts <;> rfl

/-- The tokens in front of others may be wrapped in an error node. -/
lemma Reading.wrapped {cause : Cause} {n : Nat} (peof : P eof)
    (h : Spaced P eof (offsetOf eof ts) ts) : Reading P eof ts (wrapped eof cause n ts) := by
  have split := List.take_append_drop n ts
  simp only [Grammar.wrapped]
  generalize ts.take n = taken at split ⊢
  generalize ts.drop n = rest at split ⊢
  subst split
  have plo := h.boundary peof
  have width : ∀ t ∈ taken, t.start < t.stop :=
    fun t m => h.width t (List.mem_append_left rest m)
  obtain ⟨laid, spaced⟩ := h.leaves
  obtain ⟨b, e⟩ := enclosed_eq eof .error (offsetOf eof (taken ++ rest)) (taken.map Tree.leaf) rest
  rw [start_leaves] at e
  have flat : taken.map Tree.leaf = [] → offsetOf eof (taken ++ rest) = b := by
    intro empty
    have none := List.map_eq_nil_iff.mp empty
    rw [empty, enclosed_nil (fun nil => by rw [none, nil]; rfl)] at e
    injection e
  obtain ⟨tight, stop, plast⟩ := laid.tight
  exact {
    lossless := by
      simp only [e]
      rw [tokensOf_node flat, tokensOf_leaves width]
    spaced := spaced
    laid := laid_enclosed laid plo peof
    ranged := by
      rw [← lastStop_leaves]
      exact .cons (Nat.le_refl _) tight.le plo (plast plo) (.nil stop)
    faults := by
      simp only [e]
      rw [faultsOf_error flat (faultsOf_leaves width), ← lastStop_leaves]
      rfl }

/-! ## Rules -/

/-- The kinds of the nodes that a rule makes around what other rules read. -/
def Rule.kinds : Rule → List Kind
  | skip | take | missing _ | stray | recover | nested _ => []
  | seq p q | branch _ p q => p.kinds ++ q.kinds
  | node kind p => kind :: p.kinds
  | many _ p => p.kinds
  | joined p _ kind q => kind :: (p.kinds ++ q.kinds)

/--
A relation between the tokens in front of a rule and what is read from them that every step keeps:
it holds of each piece, of one reading behind another, and of a node of a kind that satisfies `Q`
around what is read.
-/
structure Kept (eof : Nat) (Q : Kind → Prop) (R : List Token → Parsed → Prop) : Prop where
  nothing (ts : List Token) : R ts ⟨[], [], ts⟩
  leaf (t : Token) (ts : List Token) : R (t :: ts) ⟨[.leaf t], [], ts⟩
  absent (wanted : Wanted) (ts : List Token) : R ts (Grammar.absent eof wanted ts)
  wrapped (cause : Cause) (n : Nat) (ts : List Token) : R ts (Grammar.wrapped eof cause n ts)
  followedBy {ts : List Token} {a b : Parsed} : R ts a → R a.rest b → R ts (a.followedBy b)
  enclosed {k : Kind} {ts : List Token} {a : Parsed} : Q k → R ts a →
    R ts ⟨[Grammar.enclosed eof k (offsetOf eof ts) a.nodes a.rest], a.faults, a.rest⟩

section

variable {Q : Kind → Prop} {R : List Token → Parsed → Prop} {definition : Symbol → Rule}

/-- What every step keeps, a rule keeps that makes nodes of the right kinds. -/
theorem Rule.run_kept {inner : Symbol → List Token → Parsed} (h : Kept eof Q R)
    (hi : ∀ s ts, R ts (inner s ts)) {r : Rule} (hk : ∀ k ∈ r.kinds, Q k) (ts : List Token) :
    R ts (r.run eof inner ts) := by
  induction r generalizing ts with
  | skip => exact h.nothing ts
  | take =>
    cases ts with
    | nil => exact h.nothing []
    | cons t ts => exact h.leaf t ts
  | missing wanted => exact h.absent wanted ts
  | stray =>
    cases ts with
    | nil => exact h.nothing []
    | cons t ts => exact h.wrapped ..
  | recover =>
    cases ts with
    | nil => exact h.nothing []
    | cons t ts => exact h.wrapped ..
  | nested s => exact hi s ts
  | seq p q ihp ihq =>
    obtain ⟨hp, hq⟩ := List.forall_mem_append.mp hk
    exact h.followedBy (ihp hp ts) (ihq hq _)
  | node k p ih =>
    obtain ⟨hk, hp⟩ := List.forall_mem_cons.mp hk
    exact h.enclosed hk (ih hp ts)
  | branch test p q ihp ihq =>
    obtain ⟨hp, hq⟩ := List.forall_mem_append.mp hk
    rw [run]
    split
    · exact ihp hp ts
    · exact ihq hq ts
  | many test p ih =>
    refine repeatWhile_induction h.nothing ?_ _ ts
    intro ts others _ ho
    exact h.followedBy (ih hk ts) ho
  | joined p test k q ihp ihq =>
    obtain ⟨hk, hpq⟩ := List.forall_mem_cons.mp hk
    obtain ⟨hp, hq⟩ := List.forall_mem_append.mp hpq
    simp only [run]
    split
    · exact h.enclosed hk (h.followedBy (ihp hp ts) (ihq hq _))
    · exact ihp hp ts

/-- What every step keeps, a symbol keeps with any number of levels left. -/
lemma runSymbol_kept (h : Kept eof Q R) (hk : ∀ s, ∀ k ∈ (definition s).kinds, Q k)
    (levels : Nat) (s : Symbol) (ts : List Token) :
    R ts (runSymbol definition eof levels s ts) := by
  induction levels generalizing s ts with
  | zero => exact h.wrapped ..
  | succ levels ih => exact Rule.run_kept h ih (hk s) ts

end

/--
A property of rows of trees that the empty row has, and two rows together if each has it, is one of
what a loop reads if it is one of what each turn reads.
-/
lemma repeatWhile_nodes {R : List Tree → Prop} {test : Test} {read : List Token → Parsed}
    (nil : R []) (append : ∀ ts us, R ts → R us → R (ts ++ us))
    (turn : ∀ ts, test (.of ts) = true → R (read ts).nodes) (fuel : Nat) (ts : List Token) :
    R (repeatWhile test read fuel ts).nodes := by
  refine repeatWhile_induction (motive := fun _ a => R a.nodes) (fun _ => nil) ?_ fuel ts
  intro ts others pass ho
  exact append _ _ (turn ts pass) ho

/-- Reading again and again is a reading, however often. -/
lemma Reading.repeatWhile {test : Test} {read : List Token → Parsed}
    (hr : ∀ ts, Spaced P eof (offsetOf eof ts) ts → Reading P eof ts (read ts)) (fuel : Nat)
    (h : Spaced P eof (offsetOf eof ts) ts) :
    Reading P eof ts (repeatWhile test read fuel ts) := by
  refine repeatWhile_induction
    (motive := fun ts a => Spaced P eof (offsetOf eof ts) ts → Reading P eof ts a)
    (fun _ => .nothing) ?_ fuel ts h
  intro ts others _ ho h
  have first := hr ts h
  exact first.followedBy (ho first.spaced)

/-- Every step of reading keeps the tokens, their order and their faults. -/
lemma Reading.kept (peof : P eof) :
    Kept eof (· ≠ .error) fun ts a => Spaced P eof (offsetOf eof ts) ts → Reading P eof ts a where
  nothing _ := .nothing
  leaf _ _ := .leaf
  absent _ _ := .absent peof
  wrapped _ _ _ := .wrapped peof
  followedBy first second h := (first h).followedBy (second (first h).spaced)
  enclosed hk inside h := (inside h).enclosed hk peof (h.boundary peof)

/-- Every rule reads, if the productions further down do and no node it makes is an error. -/
theorem Rule.run_reading {inner : Symbol → List Token → Parsed} (peof : P eof)
    (hi : ∀ s ts, Spaced P eof (offsetOf eof ts) ts → Reading P eof ts (inner s ts))
    {r : Rule} (hk : .error ∉ r.kinds) {ts : List Token}
    (h : Spaced P eof (offsetOf eof ts) ts) : Reading P eof ts (r.run eof inner ts) := by
  have fine : ∀ k ∈ r.kinds, k ≠ .error := fun k mem e => hk (e ▸ mem)
  exact Rule.run_kept (Reading.kept peof) hi fine ts h

/-- A symbol reads with any number of levels left. -/
lemma runSymbol_reading {definition : Symbol → Rule} (peof : P eof)
    (hk : ∀ s, .error ∉ (definition s).kinds) (levels : Nat) (s : Symbol)
    (h : Spaced P eof (offsetOf eof ts) ts) :
    Reading P eof ts (runSymbol definition eof levels s ts) := by
  have fine : ∀ s, ∀ k ∈ (definition s).kinds, k ≠ .error := fun s k mem e => hk s (e ▸ mem)
  exact runSymbol_kept (Reading.kept peof) fine levels s ts h

/-- No production of the grammar makes an error node around what it reads. -/
lemma error_not_mem_kinds : .error ∉ queries.kinds ∧ ∀ s, .error ∉ (definitionOf s).kinds := by
  refine ⟨by decide, ?_⟩
  rintro (⟨⟨⟩⟩ | ⟨⟩) <;> decide

/-- A document keeps its tokens, their order and their faults. -/
theorem readDocument_reading (peof : P eof) (h : Spaced P eof (offsetOf eof ts) ts) :
    Reading P eof ts (readDocument eof ts) :=
  Rule.run_reading peof
    (fun s _ => runSymbol_reading peof error_not_mem_kinds.2 maxNesting s)
    error_not_mem_kinds.1 h

end Grammar

end TypeqlAssist

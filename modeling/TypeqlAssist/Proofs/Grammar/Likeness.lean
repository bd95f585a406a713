import Mathlib.Data.List.Forall2
import TypeqlAssist.Proofs.Grammar.Inner

/-!
# Readings that resemble each other

Rules look at the kinds of tokens only. So if the tokens of two inputs correspond one by one and
have the same kinds, whatever their offsets, both inputs are read in step: the nodes correspond as
the tokens do, the faults have the same causes, and corresponding tokens are left
(`Rule.run_alike`).
-/

namespace TypeqlAssist

namespace Tree

/--
Rows of trees with the same kinds and numbers of children all the way down, where the tokens at
the leaves correspond by `R`. A node that is no such token has no kind of one.
-/
inductive Alike (R : Token → Token → Prop) : List Tree → List Tree → Prop where
  | nil :
    Alike R [] []
  | token {t u ts us} :
    R t u →
    Alike R ts us →
    Alike R (leaf t :: ts) (leaf u :: us)
  | node {k a b a' b' cs ds ts us} :
    k.isToken = false →
    Alike R cs ds →
    Alike R ts us →
    Alike R (node k a b cs :: ts) (node k a' b' ds :: us)

variable {R : Token → Token → Prop} {ts us ts' us' : List Tree} {x y : Tree}

/-- Rows of like trees put together are alike. -/
lemma Alike.append (h : Alike R ts us) (h' : Alike R ts' us') :
    Alike R (ts ++ ts') (us ++ us') := by
  induction h with
  | nil => exact h'
  | token r _ ih => exact .token r ih
  | node hk cs _ _ ih => exact .node hk cs ih

/-- Leaves of corresponding tokens are alike. -/
lemma alike_leaves {ts us : List Token} (h : List.Forall₂ R ts us) :
    Alike R (ts.map leaf) (us.map leaf) := by
  induction h with
  | nil => exact .nil
  | cons r _ ih => exact .token r ih

/-- Rows that are alike are so tree by tree. -/
lemma Alike.forall₂ (h : Alike R ts us) : List.Forall₂ (fun x y => Alike R [x] [y]) ts us := by
  induction h with
  | nil => exact .nil
  | token r _ ih => exact .cons (.token r .nil) ih
  | node hk cs _ _ ih => exact .cons (.node hk cs .nil) ih

/-- Like rows are of the same length. -/
lemma Alike.length_eq (h : Alike R ts us) : ts.length = us.length :=
  h.forall₂.length_eq

/-- The children of trees that are alike are alike. -/
lemma Alike.children (h : Alike R [x] [y]) : Alike R x.children y.children := by
  cases h with
  | token => exact .nil
  | node _ cs => exact cs

/-- Rows that are alike are so in all nodes below them. -/
lemma Alike.preorderAll (h : Alike R ts us) : Alike R (preorderAll ts) (preorderAll us) := by
  induction h with
  | nil => exact .nil
  | token r _ ih => exact .token r ih
  | node hk cs _ ihc ih => exact .node hk cs (ihc.append ih)

section

variable (hR : ∀ t u, R t u → t.kind = u.kind)
include hR

/-- Like trees are of the same kind. -/
lemma Alike.kind_eq (h : Alike R [x] [y]) : x.kind = y.kind := by
  cases h with
  | token r => exact hR _ _ r
  | node => rfl

/-- Rows that are alike have the same kinds and numbers of children, node by node. -/
lemma Alike.shape_eq (h : Alike R ts us) :
    (Tree.preorderAll ts).map (fun n => (n.kind, n.children.length)) =
      (Tree.preorderAll us).map (fun n => (n.kind, n.children.length)) := by
  rw [← List.forall₂_eq_eq_eq, List.forall₂_map_left_iff, List.forall₂_map_right_iff]
  refine h.preorderAll.forall₂.imp fun x y same => ?_
  rw [same.kind_eq hR, same.children.length_eq]

end

end Tree

namespace Grammar

open TypeqlAssist.Tree

/-- What was read from corresponding tokens. -/
structure Parsed.Alike (R : Token → Token → Prop) (a b : Parsed) : Prop where
  nodes : Tree.Alike R a.nodes b.nodes
  causes : a.faults.map (·.cause) = b.faults.map (·.cause)
  rest : List.Forall₂ R a.rest b.rest

variable {R : Token → Token → Prop} {eof eof' : Nat}
  {inner inner' : Symbol → List Token → Parsed} {ts us : List Token} {a b c d : Parsed}

/-- Where nothing is read, like tokens are left. -/
lemma Parsed.alike_nothing (h : List.Forall₂ R ts us) :
    Parsed.Alike R ⟨[], [], ts⟩ ⟨[], [], us⟩ :=
  ⟨.nil, rfl, h⟩

/-- Like readings after like readings are alike. -/
lemma Parsed.Alike.followedBy (h : Parsed.Alike R a b) (h' : Parsed.Alike R c d) :
    Parsed.Alike R (a.followedBy c) (b.followedBy d) where
  nodes := h.nodes.append h'.nodes
  causes := by
    rw [Parsed.followedBy, Parsed.followedBy, List.map_append, List.map_append, h.causes, h'.causes]
  rest := h'.rest

/-- Nodes over what was read from corresponding tokens are alike, wherever they stand. -/
lemma Parsed.Alike.enclosed {k : Kind} {offset offset' : Nat} (hk : k.isToken = false)
    (h : Parsed.Alike R a b) :
    Parsed.Alike R ⟨[enclosed eof k offset a.nodes a.rest], a.faults, a.rest⟩
      ⟨[Grammar.enclosed eof' k offset' b.nodes b.rest], b.faults, b.rest⟩ :=
  ⟨.node hk h.nodes .nil, h.causes, h.rest⟩

/-- Gaps in front of like tokens are alike. -/
lemma absent_alike (wanted : Wanted) (h : List.Forall₂ R ts us) :
    Parsed.Alike R (absent eof wanted ts) (absent eof' wanted us) :=
  ⟨.node rfl .nil .nil, rfl, h⟩

/-- Error nodes over like tokens are alike. -/
lemma wrapped_alike (cause : Cause) (n : Nat) (h : List.Forall₂ R ts us) :
    Parsed.Alike R (wrapped eof cause n ts) (wrapped eof' cause n us) :=
  ⟨.node rfl (alike_leaves (List.forall₂_take n h)) .nil, rfl, List.forall₂_drop n h⟩

section

variable (hR : ∀ t u, R t u → t.kind = u.kind)
include hR

/-- Like tokens look the same ahead. -/
lemma Lookahead.of_alike (h : List.Forall₂ R ts us) : Lookahead.of ts = .of us := by
  cases h with
  | nil => rfl
  | cons r rest =>
    cases rest with
    | nil => simp [Lookahead.of, hR _ _ r]
    | cons r' => simp [Lookahead.of, hR _ _ r, hR _ _ r']

/-- Recovery up to a stop takes as many of like tokens. -/
lemma lengthBeforeStop_alike (h : List.Forall₂ R ts us) :
    lengthBeforeStop ts = lengthBeforeStop us := by
  induction h with
  | nil => rfl
  | cons r _ ih => rw [lengthBeforeStop, lengthBeforeStop, hR _ _ r, ih]

/-- Recovery through a stop takes as many of like tokens. -/
lemma lengthThroughStop_alike (h : List.Forall₂ R ts us) :
    lengthThroughStop ts = lengthThroughStop us := by
  induction h with
  | nil => rfl
  | cons r _ ih => rw [lengthThroughStop, lengthThroughStop, hR _ _ r, ih]

/-- Recovery takes as many of like tokens. -/
lemma recoveryLength_alike (h : List.Forall₂ R ts us) : recoveryLength ts = recoveryLength us := by
  cases h with
  | nil => rfl
  | cons r rest =>
    rw [recoveryLength, recoveryLength, hR _ _ r, lengthThroughStop_alike hR rest]

/-- Turns in step give loops in step, for both loops have as much fuel. -/
lemma repeatWhile_alike {test : Test} {read read' : List Token → Parsed}
    (hr : ∀ ts us, List.Forall₂ R ts us → Parsed.Alike R (read ts) (read' us)) (fuel : Nat)
    (h : List.Forall₂ R ts us) :
    Parsed.Alike R (repeatWhile test read fuel ts) (repeatWhile test read' fuel us) := by
  induction fuel generalizing ts us with
  | zero => exact Parsed.alike_nothing h
  | succ fuel ih =>
    rw [repeatWhile, repeatWhile, Lookahead.of_alike hR h]
    split
    · exact (hr ts us h).followedBy (ih (hr ts us h).rest)
    · exact Parsed.alike_nothing h

/-- A rule reads corresponding tokens in step, if the productions further down do. -/
theorem Rule.run_alike
    (hi : ∀ s ts us, List.Forall₂ R ts us → Parsed.Alike R (inner s ts) (inner' s us))
    {r : Rule} (hk : ∀ k ∈ r.kinds, k.isToken = false) (h : List.Forall₂ R ts us) :
    Parsed.Alike R (r.run eof inner ts) (r.run eof' inner' us) := by
  induction r generalizing ts us with
  | skip => exact Parsed.alike_nothing h
  | take =>
    cases h with
    | nil => exact Parsed.alike_nothing .nil
    | cons r rest => exact ⟨.token r .nil, rfl, rest⟩
  | missing wanted => exact absent_alike wanted h
  | stray =>
    cases h with
    | nil => exact Parsed.alike_nothing .nil
    | cons r rest => exact wrapped_alike _ 1 (.cons r rest)
  | recover =>
    have length := recoveryLength_alike hR h
    cases h with
    | nil => exact Parsed.alike_nothing .nil
    | cons r rest =>
      rw [run, run, length]
      exact wrapped_alike _ _ (.cons r rest)
  | nested s => exact hi s ts us h
  | seq p q ihp ihq =>
    obtain ⟨hp, hq⟩ := List.forall_mem_append.mp hk
    have first := ihp hp h
    exact first.followedBy (ihq hq first.rest)
  | node k p ih =>
    obtain ⟨hk, hp⟩ := List.forall_mem_cons.mp hk
    exact (ih hp h).enclosed hk
  | branch test p q ihp ihq =>
    obtain ⟨hp, hq⟩ := List.forall_mem_append.mp hk
    rw [run, run, Lookahead.of_alike hR h]
    split
    · exact ihp hp h
    · exact ihq hq h
  | many test p ih =>
    rw [run, run, h.length_eq]
    exact repeatWhile_alike hR (fun _ _ => ih hk) _ h
  | joined p test k q ihp ihq =>
    obtain ⟨hk, hpq⟩ := List.forall_mem_cons.mp hk
    obtain ⟨hp, hq⟩ := List.forall_mem_append.mp hpq
    have first := ihp hp h
    simp only [run, Lookahead.of_alike hR first.rest]
    split
    · exact (first.followedBy (ihq hq first.rest)).enclosed hk
    · exact first

/-- A symbol reads like tokens alike, with any number of levels left. -/
lemma runSymbol_alike {definition : Symbol → Rule}
    (hk : ∀ s, ∀ k ∈ (definition s).kinds, k.isToken = false) (levels : Nat) (s : Symbol)
    (h : List.Forall₂ R ts us) :
    Parsed.Alike R (runSymbol definition eof levels s ts)
      (runSymbol definition eof' levels s us) := by
  induction levels generalizing s ts us with
  | zero =>
    rw [runSymbol, runSymbol, cutOff, cutOff, lengthBeforeStop_alike hR h]
    exact wrapped_alike _ _ h
  | succ levels ih => exact Rule.run_alike hR (fun s _ _ => ih s) (hk s) h

/-- Documents of corresponding tokens are read in step. -/
theorem readDocument_alike (h : List.Forall₂ R ts us) :
    Parsed.Alike R (readDocument eof ts) (readDocument eof' us) :=
  Rule.run_alike hR (fun s _ _ => runSymbol_alike hR isToken_kinds.2 maxNesting s)
    isToken_kinds.1 h

end

end Grammar

end TypeqlAssist

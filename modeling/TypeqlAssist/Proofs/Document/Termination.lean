import TypeqlAssist.Proofs.Grammar.Cost

/-!
# The end of reading

Reading a document goes through the loops of the grammar. Each turn of a loop reads a token, so a
loop ends because its test fails, and the document ends with no token left. What is made on the way
is bounded by the tokens as well.
-/

namespace TypeqlAssist

namespace Grammar

open TypeqlAssist.Tree

/-- The loops of a rule with their tests, those inside others included. -/
def Rule.loops : Rule → List (Test × Rule)
  | skip | take | missing _ | stray | recover | nested _ => []
  | seq p q | branch _ p q | joined p _ _ q => p.loops ++ q.loops
  | node _ p => p.loops
  | many test p => (test, p) :: p.loops

/--
The loops that a document is read by: those of its queries, down to lists with commas, and those of
the productions that may contain themselves.
-/
def IsLoop (test : Test) (p : Rule) : Prop :=
  (test, p) ∈ queries.loops ∨ ∃ s, (test, p) ∈ (definitionOf s).loops

variable {eof : Nat} {inner : Symbol → List Token → Parsed} {test : Test} {p r : Rule}

/-- Each turn of a loop of a steady rule reads a token. -/
lemma Steady.consumes_of_mem_loops (h : Steady eof inner r) (hl : (test, p) ∈ r.loops) :
    Consumes (test · = true) (p.run eof inner) := by
  induction h with
  | skip | take | missing | stray | recover | nested => cases hl
  | seq _ _ ihp ihq | branch _ _ ihp ihq | joined _ _ ihp ihq =>
    rcases List.mem_append.mp hl with hl | hl
    · exact ihp hl
    · exact ihq hl
  | node _ ih => exact ih hl
  | many turn _ ih =>
    rcases List.mem_cons.mp hl with e | hl
    · cases e
      exact turn
    · exact ih hl

/-- Each turn of a loop of the grammar reads a token, with any number of levels left. -/
lemma IsLoop.consumes (h : IsLoop test p) (eof levels : Nat) :
    Consumes (test · = true) (p.run eof (runSymbol definitionOf eof levels)) := by
  have g : Guarded (runSymbol definitionOf eof levels) := runSymbol_guarded eof levels
  rcases h with h | ⟨s, h⟩
  · exact (queries_steady g).consumes_of_mem_loops h
  · exact (definitionOf_steady g s).consumes_of_mem_loops h

end Grammar

open TypeqlAssist.Tree Grammar

/-- A tree has one node for the document, and at most ten for each token. -/
lemma size_parse_le (text : Text) : (parse text).tree.size ≤ 10 * (tokenize text).length + 1 := by
  have cost := sizeAll_readDocument_le text.byteSize (tokenize text)
  have size : (parse text).tree.size =
      sizeAll (readDocument text.byteSize (tokenize text)).nodes + 1 := by
    simp only [parse, SyntaxTree.size, sizeAll, size, Nat.zero_add]
  omega

/--
Reading always gets on: all tokens of a text are read; a turn of a loop, wherever the loop stands
and whatever is in front of it, reads one at least, so that the loop goes on until its test fails
(a list goes round once for each comma); and the tree has at most ten nodes for each token and its
root.
-/
theorem reading_ends (text : Text) :
    (readDocument text.byteSize (tokenize text)).rest = [] ∧
    (∀ test p, IsLoop test p → ∀ eof levels ts,
      (test (.of ts) = true →
        (p.run eof (runSymbol definitionOf eof levels) ts).rest.length < ts.length) ∧
      test (.of ((Rule.many test p).run eof (runSymbol definitionOf eof levels) ts).rest) = false) ∧
    (parse text).tree.size ≤ 10 * (tokenize text).length + 1 := by
  refine ⟨readDocument_rest _ _, ?_, size_parse_le text⟩
  intro test p h eof levels ts
  have turn := h.consumes eof levels
  exact ⟨turn ts, turn.many_stops ts⟩

end TypeqlAssist

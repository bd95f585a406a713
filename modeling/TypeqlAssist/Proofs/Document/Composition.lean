import TypeqlAssist.Proofs.Document.Structure
import TypeqlAssist.Proofs.Grammar.Continuing
import TypeqlAssist.Proofs.Grammar.Shifting
import TypeqlAssist.Proofs.Token.Lexeme

/-!
# Documents behind one another

A text that ends with a query and its `;` is parsed independently of what follows on the next
line: the tree and the errors of both parts stand behind one another, those of the second part
moved by the size of the first (`parse_append`).
-/

namespace TypeqlAssist

open TypeqlAssist.Tree Grammar

/-! ## Parts of joined texts -/

namespace Text

/-- A part of the second of two texts is cut out of both together further on. -/
lemma slice_shift (a b : Text) (start stop : Nat) :
    slice (a ++ b) (a.byteSize + start) (a.byteSize + stop) = slice b start stop := by
  simp only [slice, slice?, dropBytes?_add, Nat.add_le_add_iff_left, Nat.add_sub_add_left]

/-- A line feed between two texts adds one byte. -/
lemma byteSize_newline (a b : Text) :
    byteSize (a ++ '\n' :: b) = a.byteSize + 1 + b.byteSize := by
  rw [byteSize_append, byteSize_cons, Nat.add_assoc]
  rfl

/-- A boundary splits its text. -/
lemma exists_append_of_isBoundary {text : Text} {n : Nat} (h : text.isBoundary n = true) :
    ∃ a b : Text, text = a ++ b ∧ a.byteSize = n := by
  unfold isBoundary at h
  induction n, text using dropBytes?.induct with
  | case1 cs => exact ⟨[], cs, rfl, rfl⟩
  | case2 n => cases h
  | case3 n c cs le ih =>
    rw [dropBytes?, if_pos le] at h
    obtain ⟨a, b, rfl, size⟩ := ih h
    refine ⟨c :: a, b, rfl, ?_⟩
    rw [byteSize_cons, size]
    omega
  | case4 n c cs lt =>
    rw [dropBytes?, if_neg lt] at h
    cases h

/-- Of two first parts of a text, the one with more bytes goes on where the other one ends. -/
lemma exists_between {a b c d : Text} (h : a ++ b = c ++ d) (size : c.byteSize ≤ a.byteSize) :
    ∃ x, a = c ++ x ∧ d = x ++ b := by
  rcases List.append_eq_append_iff.mp h with ⟨x, rfl, rfl⟩ | ⟨x, rfl, rfl⟩
  · rw [byteSize_append] at size
    have nothing : byteSize x = 0 := by omega
    cases eq_nil_of_byteSize nothing
    exact ⟨[], by simp, rfl⟩
  · exact ⟨x, rfl, rfl⟩

/-- A part of the first of two texts is cut out of both together at the same place. -/
lemma slice_append_left {a : Text} (b : Text) {start stop : Nat}
    (ha : a.isBoundary start = true) (hb : a.isBoundary stop = true) (le : start ≤ stop) :
    slice (a ++ b) start stop = slice a start stop := by
  obtain ⟨x, y, rfl, rfl⟩ := exists_append_of_isBoundary ha
  obtain ⟨n, rfl⟩ := Nat.exists_eq_add_of_le le
  rw [isBoundary, dropBytes?_add] at hb
  obtain ⟨w, z, rfl, rfl⟩ := exists_append_of_isBoundary hb
  rw [slice_append, List.append_assoc, List.append_assoc, slice_append]

end Text

/-! ## Joined documents -/

/-- The same error a number of bytes further on. -/
def SyntaxError.shift (d : Nat) (e : SyntaxError) : SyntaxError :=
  ⟨e.message, d + e.start, d + e.stop⟩

/-- The text ends with a query that a `;` closes. -/
def isTerminated (text : Text) : Bool :=
  endsWithQuery (parseTree text).children

variable {a : Text}

/-- A fault in the first text has the same message when a second one follows. -/
lemma errorOf_append_left (b : Text) {f : Fault} (order : f.start ≤ f.stop)
    (start : a.isBoundary f.start = true) (stop : a.isBoundary f.stop = true) :
    Document.errorOf (a ++ b) f = Document.errorOf a f := by
  rw [Document.errorOf, Document.errorOf, Fault.message, Fault.message,
    Text.slice_append_left b start stop order]

/-- A fault in the second text has the same message, further on. -/
lemma errorOf_shift (a b : Text) (f : Fault) :
    Document.errorOf (a ++ b) (f.shift a.byteSize) = (Document.errorOf b f).shift a.byteSize := by
  simp only [Document.errorOf, Fault.message, Fault.shift, Text.slice_shift, SyntaxError.shift]

/-- A text that ends with a `;` may be followed by a line feed. -/
lemma finished_of_semicolon {s : Token} {ts : List Token} (h : ts ++ [s] = tokenize a)
    (hs : s.kind = .semicolon) : Finished '\n' a where
  noString := by
    intro t ht
    rw [← h, List.getLast?_concat] at ht
    cases ht
    rw [hs]
    exact nofun
  flush := .inl rfl

/-- The tokens of a terminated text, or of none, stand in front of those on the next line. -/
lemma tokenize_terminated (h : a = [] ∨ isTerminated a = true) (b : Text) :
    tokenize (a ++ '\n' :: b) = tokenize a ++ (tokenize b).map (Token.shift (a.byteSize + 1)) := by
  have blank : tokenize ('\n' :: b) = (tokenize b).map (Token.shift 1) := tokenize_blank rfl b
  rcases h with rfl | terminated
  · exact blank
  · obtain ⟨_, e, s, ⟨ts, ends⟩, hs⟩ := readDocument_append 0 [] terminated
    have last : (ts ++ [e]) ++ [s] = tokenize a := by
      rw [← ends, List.append_assoc]
      rfl
    rw [tokenize_append rfl b (finished_of_semicolon last hs), blank, map_shift_shift]

/-- What is read from a terminated text, or from none, stands in front of what follows it. -/
theorem readDocument_terminated (h : a = [] ∨ isTerminated a = true) (b : Text) :
    readDocument (Text.byteSize (a ++ '\n' :: b)) (tokenize (a ++ '\n' :: b)) =
      (readDocument a.byteSize (tokenize a)).followedBy
        ((readDocument b.byteSize (tokenize b)).shift (a.byteSize + 1)) := by
  rw [Text.byteSize_newline, tokenize_terminated h, ← readDocument_shift]
  rcases h with rfl | terminated
  · rfl
  · exact (readDocument_append _ _ terminated).1

/--
What stands behind a terminated text on the next line is parsed as it is alone, and the terminated
text is, too.
-/
theorem parse_append (a b : Text) (h : isTerminated a = true) :
    (parseTree (a ++ '\n' :: b)).children =
      (parseTree a).children ++ (parseTree b).children.map (Tree.shift (a.byteSize + 1)) ∧
    (parse (a ++ '\n' :: b)).errors =
      (parse a).errors ++ (parse b).errors.map (SyntaxError.shift (a.byteSize + 1)) := by
  have joined := readDocument_terminated (.inr h) b
  constructor
  · exact congrArg Parsed.nodes joined
  · rw [errors_of_text, errors_of_text, errors_of_text, joined, Parsed.followedBy, List.map_append]
    congr 1
    · refine List.map_congr_left fun f hf => ?_
      obtain ⟨_, order, start, stop⟩ := (reading_of_text a).ranged.of_mem hf
      exact errorOf_append_left _ order start stop
    · have size : Text.byteSize (a ++ ['\n']) = a.byteSize + 1 := Text.byteSize_append a ['\n']
      have assoc : a ++ '\n' :: b = (a ++ ['\n']) ++ b := List.append_cons a '\n' b
      rw [assoc, ← size, Parsed.shift, List.map_map, List.map_map]
      exact List.map_congr_left fun f _ => errorOf_shift (a ++ ['\n']) b f

/-- A broken query with its end, and an unfinished one behind it. -/
theorem parse_append_match : isTerminated "match $x isa; end;".toList = true ∧
    (parseTree ("match $x isa; end;\nmatch $y".toList)).children =
      (parseTree "match $x isa; end;".toList).children ++
        (parseTree "match $y".toList).children.map (Tree.shift 19) ∧
    (parse ("match $x isa; end;\nmatch $y".toList)).errors =
      (parse "match $x isa; end;".toList).errors ++
        (parse "match $y".toList).errors.map (SyntaxError.shift 19) :=
  ⟨by decide, parse_append "match $x isa; end;".toList "match $y".toList (by decide)⟩

end TypeqlAssist

import TypeqlAssist.Proofs.Token.Joining

/-!
# Line breaks between tokens

A string and a comment stop in front of a line feed at the latest, and no other token reaches it.
So a text may be cut at every line feed (`tokenize_line_break`), whether or not the string or the
comment in front of it is finished. Only a backslash takes the line feed behind it along, and only
if it stands in a string.
-/

namespace TypeqlAssist

/-- The end of a text is the end of its last part. -/
lemma Text.getLast?_suffix_ne {a b : Text} {s : Char} (h : (a ++ b).getLast? ≠ some s) :
    b.getLast? ≠ some s := by
  intro last
  rw [List.getLast?_append, last] at h
  exact h rfl

namespace Lexer

/-- A string that ends at a line feed at once. -/
lemma stringLength_at_newline (quote : Char) (ds : Text) : stringLength quote ('\n' :: ds) = 0 := by
  cases ds <;> rfl

/-- A line feed ends a string, finished or not, unless a backslash stands in front of it. -/
lemma stringLength_newline (quote : Char) {cs : Text} (h : cs.getLast? ≠ some '\\') (ds : Text) :
    stringLength quote (cs ++ '\n' :: ds) = stringLength quote cs := by
  induction cs using stringLength.induct quote with
  | case1 => exact stringLength_at_newline quote ds
  | case2 c newline =>
    cases eq_of_beq newline
    exact stringLength_at_newline quote _
  | case3 c other =>
    have plain : (c == '\\') = false := beq_eq_false_iff_ne.mpr fun e => h (congrArg some e)
    rw [List.singleton_append, stringLength, stringLength, plain, if_neg other, if_neg other,
      stringLength_at_newline]
    exact ite_self _
  | case4 c d cs escape ih =>
    have rest := Text.getLast?_suffix_ne (a := [c, d]) h
    rw [List.cons_append, List.cons_append, stringLength, stringLength, if_pos escape,
      if_pos escape, ih rest]
  | case5 c d cs escape newline =>
    rw [List.cons_append, List.cons_append, stringLength, stringLength, if_neg escape,
      if_neg escape, if_pos newline, if_pos newline]
  | case6 c d cs escape newline closed =>
    rw [List.cons_append, List.cons_append, stringLength, stringLength, if_neg escape,
      if_neg escape, if_neg newline, if_neg newline, if_pos closed, if_pos closed]
  | case7 c d cs escape newline closed ih =>
    have rest := Text.getLast?_suffix_ne (a := [c]) h
    rw [List.cons_append, List.cons_append, stringLength, stringLength, if_neg escape,
      if_neg escape, if_neg newline, if_neg newline, if_neg closed, if_neg closed,
      ← List.cons_append, ih rest]

/-- No first token of a text goes on behind a line feed. -/
lemma measure_newline {c : Char} {cs : Text} (h : cs.getLast? ≠ some '\\') (b : Text) :
    measure c (cs ++ '\n' :: b) = measure c cs :=
  measure_append_of_string rfl fun _ => stringLength_newline c h b

end Lexer

open Lexer

/-- The tokens of a text that goes on with a line feed are those of what stands on both sides. -/
lemma tokenize_append_newline {a : Text} (h : a.getLast? ≠ some '\\') (b : Text) :
    tokenize (a ++ '\n' :: b) =
      tokenize a ++ (tokenize ('\n' :: b)).map (Token.shift a.byteSize) := by
  induction a using gap_induction with
  | trivia a none =>
    rw [tokenize_trivia none, List.nil_append]
    exact tokenize_newline none b
  | token gap c cs length ih =>
    have behind := Text.getLast?_suffix_ne h
    have same : measure c (cs ++ '\n' :: b) = measure c cs :=
      measure_newline (Text.getLast?_suffix_ne (a := [c]) behind) b
    have rest : ((c :: cs).drop (measure c cs).2).getLast? ≠ some '\\' := by
      rw [← List.take_append_drop (measure c cs).2 (c :: cs)] at behind
      exact Text.getLast?_suffix_ne behind
    exact tokenize_cons_append _ length same (ih rest)

/--
A text is cut at a line feed: its tokens are those of the text in front of it, which does not end
with a backslash, and then those of the text behind it, moved by what stands before them.
-/
theorem tokenize_line_break {a : Text} (h : a.getLast? ≠ some '\\') (b : Text) :
    tokenize (a ++ '\n' :: b) =
      tokenize a ++ (tokenize b).map (Token.shift (a.byteSize + 1)) := by
  rw [tokenize_append_newline h, tokenize_blank rfl, map_shift_shift]
  rfl

/-- A string that nothing closes ends in front of the line feed. -/
theorem tokenize_unfinished_string :
    "x \"ab".toList.getLast? ≠ some '\\' ∧
      tokenize ("x \"ab".toList ++ '\n' :: "c\"".toList) =
        tokenize "x \"ab".toList ++ (tokenize "c\"".toList).map (Token.shift 6) :=
  ⟨by decide, tokenize_line_break (by decide) _⟩

end TypeqlAssist

import TypeqlAssist.Cases.Reader
import TypeqlAssist.Proofs.Token.Spacing

/-!
# The lines of joined texts

A line feed between two texts separates their lines, but for one thing: the first text may end with
a line feed itself, and then there is an empty line (`lines_append_newline`). Blank lines at the end
of the value of a field do not count (`Draft.set_concat_nil`).
-/

namespace TypeqlAssist

namespace Text

variable {a b : Text}

/-- A text has at least one part, if only an empty one. -/
lemma splitLines_ne_nil (text : Text) : splitLines text ≠ [] := by
  cases text with
  | nil => exact nofun
  | cons c cs =>
    rw [splitLines]
    split
    · exact nofun
    · split <;> exact nofun

/-- A text has a last part. -/
lemma exists_splitLines (text : Text) : ∃ init last, splitLines text = init ++ [last] := by
  rcases List.eq_nil_or_concat (splitLines text) with none | ⟨init, last, e⟩
  · exact absurd none (splitLines_ne_nil text)
  · exact ⟨init, last, e.trans List.concat_eq_append⟩

/-- A line feed between two texts separates their parts. -/
lemma splitLines_append_newline (a b : Text) :
    splitLines (a ++ '\n' :: b) = splitLines a ++ splitLines b := by
  induction a with
  | nil => rfl
  | cons c cs ih =>
    obtain ⟨line, rest, e⟩ := List.exists_cons_of_ne_nil (splitLines_ne_nil cs)
    rw [List.cons_append, splitLines, splitLines, ih, e]
    split <;> rfl

/-- A line is joined to those after it by a line feed. -/
lemma joinLines_cons (line : Text) {rest : List Text} (h : rest ≠ []) :
    joinLines (line :: rest) = line ++ '\n' :: joinLines rest := by
  obtain ⟨next, rest, rfl⟩ := List.exists_cons_of_ne_nil h
  rfl

/-- Joining the parts of a text gives it back. -/
lemma joinLines_splitLines (text : Text) : joinLines (splitLines text) = text := by
  induction text with
  | nil => rfl
  | cons c cs ih =>
    rw [splitLines]
    split
    next newline =>
      rw [joinLines_cons [] (splitLines_ne_nil cs), ih, eq_of_beq newline]
      rfl
    next =>
      obtain ⟨line, rest, e⟩ := List.exists_cons_of_ne_nil (splitLines_ne_nil cs)
      rw [e] at ih ⊢
      subst ih
      cases rest <;> rfl

/-- The last line stands at the end of the text. -/
lemma exists_append_joinLines (init : List Text) (last : Text) :
    ∃ front, joinLines (init ++ [last]) = front ++ last := by
  induction init with
  | nil => exact ⟨[], rfl⟩
  | cons line init ih =>
    obtain ⟨front, e⟩ := ih
    rw [List.cons_append, joinLines_cons line (by simp), e]
    exact ⟨line ++ '\n' :: front, by simp⟩

/-- The lines of a text that is followed by a line feed, and of what stands behind that. -/
lemma lines_split (a b : Text) :
    lines (a ++ '\n' :: b) = (splitLines a).map dropReturn ++ lines b := by
  obtain ⟨init, last, e⟩ := exists_splitLines b
  simp only [lines, splitLines_append_newline, e]
  rw [← List.append_assoc, List.dropLast_concat, List.dropLast_concat, List.getLast?_concat,
    List.getLast?_concat, List.map_append]
  cases last with
  | nil => rfl
  | cons c cs => exact List.append_assoc _ _ _

/--
A text that does not end with a carriage return has its own lines in front of a line feed, and an
empty one if nothing stands in its last line.
-/
lemma lines_append_newline (h : a.getLast? ≠ some '\r') (b : Text) :
    ∃ blank, (blank = [] ∨ blank = [[]]) ∧
      lines (a ++ '\n' :: b) = lines a ++ (blank ++ lines b) := by
  obtain ⟨init, last, e⟩ := exists_splitLines a
  have whole := joinLines_splitLines a
  obtain ⟨front, split⟩ := exists_append_joinLines init last
  rw [e, split] at whole
  have plain : dropReturn last = last := by
    refine if_neg fun ends => h ?_
    rw [← whole, List.getLast?_append, eq_of_beq ends]
    rfl
  rw [lines_split, e, List.map_append, List.map_singleton, plain]
  simp only [lines, e, List.dropLast_concat, List.getLast?_concat]
  cases last with
  | nil => exact ⟨[[]], .inr rfl, List.append_assoc _ _ _⟩
  | cons c cs => exact ⟨[], .inl rfl, rfl⟩

/-! ## Blank ends -/

/-- What fails a test at the end of a list does not count where both ends are dropped. -/
lemma dropWhile_concat {α : Type} {p : α → Bool} {x : α} (h : p x = true) (xs : List α) :
    (((xs ++ [x]).dropWhile p).reverse.dropWhile p) = ((xs.dropWhile p).reverse.dropWhile p) := by
  induction xs with
  | nil => rw [List.nil_append, List.dropWhile_cons_of_pos h]
  | cons y ys ih =>
    rw [List.cons_append, List.dropWhile_cons, List.dropWhile_cons]
    split
    · exact ih
    · rw [← List.cons_append, List.reverse_append, List.reverse_singleton, List.singleton_append,
        List.dropWhile_cons_of_pos h]

/-- A blank at the end does not count when a text is trimmed. -/
lemma trim_concat {c : Char} (h : isBlankChar c = true) (text : Text) :
    trim (text ++ [c]) = trim text :=
  congrArg List.reverse (dropWhile_concat h text)

/-- A blank line at the end adds a line feed at most. -/
lemma trim_joinLines_concat (ls : List Text) :
    trim (joinLines (ls ++ [[]])) = trim (joinLines ls) := by
  cases ls with
  | nil => rfl
  | cons l ls =>
    have more : joinLines (l :: ls ++ [[]]) = joinLines (l :: ls) ++ ['\n'] := by
      induction ls generalizing l with
      | nil => rfl
      | cons m ls ih =>
        rw [List.cons_append, joinLines_cons l (by simp), ih, joinLines_cons l (by simp),
          List.append_assoc]
        rfl
    rw [more, trim_concat rfl]

end Text

namespace Cases

open Text

/-- An empty line at the end does not count when blank lines are trimmed. -/
lemma trimBlankLines_concat (ls : List Text) : trimBlankLines (ls ++ [[]]) = trimBlankLines ls :=
  congrArg List.reverse (dropWhile_concat rfl ls)

/-- There is nothing to cut from an empty line. -/
lemma cutIndent_nil (n : Nat) : cutIndent n [] = [] := by
  cases n <;> rfl

/-- An empty line at the end does not count for the indentation. -/
lemma dedent_concat (ls : List Text) : dedent (ls ++ [[]]) = dedent ls := by
  have indent : commonIndent (ls ++ [[]]) = commonIndent ls := by
    have blank : [([] : Text)].filter (fun l => !isBlank l) = [] := rfl
    rw [commonIndent, List.filter_append, blank, List.append_nil]
    rfl
  rw [dedent, indent, List.map_append, List.map_singleton, cutIndent_nil, trimBlankLines_concat]
  rfl

/-- An empty line at the end of a list adds no entry. -/
lemma Draft.entries_concat (ls : List Text) : entries (ls ++ [[]]) = entries ls := by
  rw [entries, List.map_append, List.filter_append]
  exact List.append_nil _

/-- A blank line at the end of its value does not change a field. -/
lemma Draft.set_concat (d : Draft) (f : Field) (value : List Text) :
    d.set f (value ++ [[]]) = d.set f value := by
  cases f with
  | description => rw [set, set, trim_joinLines_concat]
  | input => rw [set, set, dedent_concat]
  | expected => rw [set, set, entries_concat]
  | excluded => rw [set, set, entries_concat]
  | mode => rw [set, set, List.flatten_append, List.flatten_singleton, List.append_nil]

end Cases

end TypeqlAssist

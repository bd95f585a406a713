import TypeqlAssist.Proofs.Token.Lexeme

/-!
# A token on its own

What follows a token may decide where it ends: a point in front of a digit, the mark of `isa!`, the
second half of a symbol. But it belongs to the token then. So the characters of a token, cut out of
their text, are measured as they were (`measure_take`) and have that token alone
(`tokenize_slice`).
-/

namespace TypeqlAssist

namespace Lexer

/-- A run within some first characters ends with them, or where it ended. -/
lemma runLength_take (p : Char → Bool) (n : Nat) (cs : Text) :
    runLength p (cs.take n) = min n (runLength p cs) := by
  induction cs generalizing n with
  | nil =>
    rw [List.take_nil]
    exact (Nat.min_zero n).symm
  | cons c cs ih =>
    cases n with
    | zero => exact (Nat.zero_min _).symm
    | succ n =>
      rw [List.take_succ_cons, runLength, runLength, ih]
      split
      · exact (Nat.succ_min_succ _ _).symm
      · rfl

/-- A run that ends within the characters taken is whole. -/
lemma runLength_take_of_le {p : Char → Bool} {n : Nat} {cs : Text} (h : runLength p cs ≤ n) :
    runLength p (cs.take n) = runLength p cs := by
  rw [runLength_take, Nat.min_eq_right h]

/-- A word keeps the mark behind it, and looks no further. -/
lemma wordLength_take (cs : Text) : wordLength (cs.take (wordLength cs)) = wordLength cs := by
  have run {n : Nat} (le : runLength isIdentifierChar cs ≤ n) := runLength_take_of_le le
  cases mark : (cs.drop (runLength isIdentifierChar cs)).head? == some '!' &&
      (cs.take (runLength isIdentifierChar cs) == ['i', 's', 'a'] ||
        cs.take (runLength isIdentifierChar cs) == ['s', 'u', 'b']) with
  | true =>
    have length : wordLength cs = runLength isIdentifierChar cs + 1 := by
      simp only [wordLength, mark, if_true]
    rw [length]
    simp only [wordLength]
    rw [run (Nat.le_succ _), List.take_take, Nat.min_eq_left (Nat.le_succ _), List.drop_take,
      Nat.add_sub_cancel_left, List.head?_take, if_neg Nat.one_ne_zero, if_pos mark]
  | false =>
    have length : wordLength cs = runLength isIdentifierChar cs := by
      simp only [wordLength, mark, Bool.false_eq_true, if_false]
    rw [length]
    simp only [wordLength]
    rw [run (Nat.le_refl _), List.drop_take, Nat.sub_self]
    rfl

/-- A number keeps the digits behind its point, and looks no further. -/
lemma numberLength_take (cs : Text) :
    numberLength (cs.take (numberLength cs)) = numberLength cs := by
  have run {n : Nat} (le : runLength Char.isDigit cs ≤ n) := runLength_take_of_le le
  have short : numberLength (cs.take (runLength Char.isDigit cs)) = runLength Char.isDigit cs := by
    simp only [numberLength]
    rw [run (Nat.le_refl _), List.drop_take, Nat.sub_self]
    rfl
  fun_cases numberLength cs with
  | case1 whole d ds rest digit =>
    simp only [numberLength]
    rw [run (by omega), List.drop_take, rest, Nat.add_assoc, Nat.add_sub_cancel_left,
      Nat.add_comm 2]
    simp only [List.take_succ_cons]
    rw [if_pos digit, runLength_take_of_le (Nat.le_refl _)]
    omega
  | case2 => exact short
  | case3 => exact short

/-- A string goes on with a character that is not special. -/
lemma stringLength_cons {quote c : Char} (escape : ¬(c == '\\') = true)
    (newline : ¬(c == '\n') = true) (closed : ¬(c == quote) = true) (cs : Text) :
    stringLength quote (c :: cs) = stringLength quote cs + 1 := by
  cases cs with
  | nil => exact if_neg newline
  | cons d cs => rw [stringLength, if_neg escape, if_neg newline, if_neg closed]

/-- A string ends with its quote or at the end of a text, so it looks no further. -/
lemma stringLength_take (quote : Char) (cs : Text) :
    stringLength quote (cs.take (stringLength quote cs)) = stringLength quote cs := by
  fun_induction stringLength quote cs with
  | case1 => rfl
  | case2 => rfl
  | case3 c other => rw [List.take_succ_cons, List.take_nil, stringLength, if_neg other]
  | case4 c d cs escape ih =>
    rw [List.take_succ_cons, List.take_succ_cons, stringLength, if_pos escape, ih]
  | case5 => rfl
  | case6 c d cs escape newline closed =>
    rw [List.take_succ_cons, List.take_zero, stringLength, if_neg newline]
  | case7 c d cs escape newline closed ih =>
    rw [List.take_succ_cons, stringLength_cons escape newline closed, ih]

/-- A symbol keeps its second half, and looks no further. -/
lemma measureSymbol_take (c : Char) (cs : Text) :
    measureSymbol c (cs.take ((measureSymbol c cs).2 - 1)) = measureSymbol c cs := by
  rcases measureSymbol_cases c cs with one | ⟨d, ds, rfl, _, _, two⟩
  · rw [one, Nat.sub_self, List.take_zero, measureSymbol_nil]
  · rw [two]
    rfl

/-- The characters of a first token are measured as they were in front of what follows. -/
lemma measure_take (c : Char) (cs : Text) :
    measure c (cs.take ((measure c cs).2 - 1)) = measure c cs := by
  unfold measure
  split
  next => rw [Nat.add_sub_cancel, runLength_take_of_le (Nat.le_refl _)]
  split
  next letter =>
    simp only
    rw [← List.take_cons (wordLength_pos (isIdentifierChar_of_start letter)), wordLength_take,
      List.take_take, Nat.min_self]
  split
  next digit => rw [← List.take_cons (numberLength_pos digit), numberLength_take]
  split
  next => rw [Nat.add_sub_cancel, stringLength_take]
  next => exact measureSymbol_take c cs

end Lexer

open Lexer

/-- A first token that is the whole text is its only one. -/
lemma tokenize_whole {c : Char} {cs : Text} (solid : isBlank c = false ∧ c ≠ '#')
    (whole : (measure c cs).2 = cs.length + 1) :
    tokenize (c :: cs) = [⟨(measure c cs).1, 0, Text.byteSize (c :: cs)⟩] := by
  have gapped : triviaLength ([] ++ c :: cs) = 0 := triviaLength_of_solid solid cs
  have first := tokenize_cons gapped
  rw [whole, ← List.length_cons, List.take_length, List.drop_length, List.nil_append,
    Text.byteSize_nil, Nat.zero_add] at first
  exact first

/--
The characters of a token, cut out of the text, have one token: it is of the same kind and spans all
of them.
-/
theorem tokenize_slice {text : Text} {t : Token} (h : t ∈ tokenize text) :
    ∃ word : Text, text.slice? t.start t.stop = some word ∧ t.start + word.byteSize = t.stop ∧
      tokenize word = [⟨t.kind, 0, word.byteSize⟩] := by
  obtain ⟨x, c, cs, rfl, rfl, solid⟩ := tokenize_solid h
  refine ⟨(c :: cs).take (measure c cs).2, ?_, rfl, ?_⟩
  · have cut := Text.slice?_append x ((c :: cs).take (measure c cs).2)
      ((c :: cs).drop (measure c cs).2)
    rwa [List.take_append_drop] at cut
  · have pos := measure_pos c cs
    have le := measure_le c cs
    have same := measure_take c cs
    rw [List.take_cons pos, ← congrArg Prod.fst same]
    refine tokenize_whole solid ?_
    rw [same, List.length_take_of_le (by omega), Nat.sub_add_cancel pos]

/-- A number keeps the point and the digit behind it. -/
theorem tokenize_slice_number :
    ⟨.numberLiteral, 3, 6⟩ ∈ tokenize "$x 1.5;".toList ∧
      ∃ word : Text, Text.slice? "$x 1.5;".toList 3 6 = some word ∧ 3 + word.byteSize = 6 ∧
        tokenize word = [⟨.numberLiteral, 0, word.byteSize⟩] :=
  ⟨by decide, tokenize_slice (t := ⟨.numberLiteral, 3, 6⟩) (by decide)⟩

end TypeqlAssist

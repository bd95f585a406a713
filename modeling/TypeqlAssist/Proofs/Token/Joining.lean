import TypeqlAssist.Proofs.Token.Spacing

/-!
# The tokens of joined texts

A text may be cut in front of a character that no token goes on with. What stands before the cut
has the tokens that it has alone, and what stands behind it has its own, moved by the size of the
first part (`tokenize_append`).
-/

namespace TypeqlAssist

/-- The same token a number of bytes further on. -/
def Token.shift (d : Nat) (t : Token) : Token :=
  ⟨t.kind, d + t.start, d + t.stop⟩

/-- A token that is moved by nothing stays where it is. -/
@[simp]
lemma Token.shift_zero (t : Token) : t.shift 0 = t := by
  simp [shift]

/-- A token that is moved twice is moved by both distances. -/
lemma Token.shift_shift (d e : Nat) (t : Token) : (t.shift e).shift d = t.shift (d + e) := by
  simp [shift, Nat.add_assoc]

/-- Tokens that are moved by nothing stay where they are. -/
lemma map_shift_zero (ts : List Token) : ts.map (Token.shift 0) = ts := by
  rw [funext Token.shift_zero]
  exact List.map_id ts

/-- Tokens that are moved twice are moved by both distances. -/
lemma map_shift_shift (d e : Nat) (ts : List Token) :
    (ts.map (Token.shift e)).map (Token.shift d) = ts.map (Token.shift (d + e)) := by
  rw [List.map_map]
  exact List.map_congr_left fun t _ => t.shift_shift d e

/-- A text without bytes is empty. -/
lemma Text.eq_nil_of_byteSize {text : Text} (h : text.byteSize = 0) : text = [] := by
  cases text with
  | nil => rfl
  | cons c cs =>
    have pos := c.utf8Size_pos
    rw [byteSize_cons] at h
    omega

namespace Lexer

/-! ## Blanks and comments -/

mutual

/-- There are no more leading blanks and comments than characters. -/
lemma triviaLength_le : ∀ a : Text, triviaLength a ≤ a.length
  | [] => Nat.le_refl _
  | c :: cs => by
    have blank := triviaLength_le cs
    have comment := commentLength_le cs
    rw [triviaLength, List.length_cons]
    split
    · omega
    · split <;> omega

/-- The rest of a comment and what is skipped behind it is no longer than the text. -/
lemma commentLength_le : ∀ a : Text, commentLength a ≤ a.length
  | [] => Nat.le_refl _
  | c :: cs => by
    have blank := triviaLength_le cs
    have comment := commentLength_le cs
    rw [commentLength, List.length_cons]
    split <;> omega

end

mutual

/-- Blanks and comments that end within a text do not depend on what follows it. -/
lemma triviaLength_append (b : Text) :
    ∀ a : Text, triviaLength a < a.length → triviaLength (a ++ b) = triviaLength a
  | [], h => nomatch h
  | c :: cs, h => by
    have blank := triviaLength_append b cs
    have comment := commentLength_append b cs
    rw [triviaLength, List.length_cons] at h
    rw [List.cons_append, triviaLength, triviaLength]
    split at h
    next hc => rw [if_pos hc, if_pos hc, blank (by omega)]
    next hc =>
      rw [if_neg hc, if_neg hc]
      split at h
      next hc => rw [if_pos hc, if_pos hc, comment (by omega)]
      next hc => rw [if_neg hc, if_neg hc]

/-- Trivia in a comment that ends in a text do not depend on what follows it. -/
lemma commentLength_append (b : Text) :
    ∀ a : Text, commentLength a < a.length → commentLength (a ++ b) = commentLength a
  | [], h => nomatch h
  | c :: cs, h => by
    have blank := triviaLength_append b cs
    have comment := commentLength_append b cs
    rw [commentLength, List.length_cons] at h
    rw [List.cons_append, commentLength, commentLength]
    split at h
    next hc => rw [if_pos hc, if_pos hc, blank (by omega)]
    next hc => rw [if_neg hc, if_neg hc, comment (by omega)]

end

mutual

/-- A line feed ends the comment in front of it, and more blanks and comments may follow. -/
lemma triviaLength_newline (b : Text) :
    ∀ a : Text, triviaLength a = a.length →
      triviaLength (a ++ '\n' :: b) = a.length + (triviaLength b + 1)
  | [], _ => by
    rw [List.nil_append, triviaLength, if_pos (by decide), List.length_nil, Nat.zero_add]
  | c :: cs, h => by
    have blank := triviaLength_newline b cs
    have comment := commentLength_newline b cs
    rw [triviaLength, List.length_cons] at h
    rw [List.cons_append, triviaLength, List.length_cons]
    split at h
    next hc => rw [if_pos hc, blank (by omega)]; omega
    next hc =>
      rw [if_neg hc]
      split at h
      next hc => rw [if_pos hc, comment (by omega)]; omega
      next hc => omega

/-- A comment up to the end of a text ends at a line feed behind it. -/
lemma commentLength_newline (b : Text) :
    ∀ a : Text, commentLength a = a.length →
      commentLength (a ++ '\n' :: b) = a.length + (triviaLength b + 1)
  | [], _ => by
    rw [List.nil_append, commentLength, if_pos (by decide), List.length_nil, Nat.zero_add]
  | c :: cs, h => by
    have blank := triviaLength_newline b cs
    have comment := commentLength_newline b cs
    rw [commentLength, List.length_cons] at h
    rw [List.cons_append, commentLength, List.length_cons]
    split at h
    next hc => rw [if_pos hc, blank (by omega)]; omega
    next hc => rw [if_neg hc, comment (by omega)]; omega

end

/-! ## One token -/

/-- No token goes on with the character, except for a string that it stands in. -/
def separates (s : Char) : Bool :=
  !isIdentifierChar s && s != '!' && s != '=' && s != '>' && s != '.'

variable {c s : Char} {cs ds : Text}

/-- What holds of each of the blanks between tokens holds of any blank. -/
lemma forall_isBlank {P : Char → Prop} (own : P ' ' ∧ P '\t' ∧ P '\n' ∧ P '\x0c' ∧ P '\r')
    (hs : isBlank s = true) : P s := by
  obtain ⟨space, tab, newline, page, back⟩ := own
  simp only [isBlank, Bool.or_eq_true, beq_iff_eq] at hs
  rcases hs with (((rfl | rfl) | rfl) | rfl) | rfl <;> assumption

/-- No token goes on with a blank. -/
lemma separates_of_isBlank (hs : isBlank s = true) : separates s = true :=
  forall_isBlank (P := (separates · = true)) (by decide) hs

/-- What cannot stand in a word is no digit. -/
lemma isDigit_of_isIdentifierChar (h : isIdentifierChar s = false) : s.isDigit = false := by
  simp only [isIdentifierChar, Char.isAlphanum, Bool.or_eq_false_iff] at h
  exact h.1.1.2

/-- A run is no longer than its text. -/
lemma runLength_le (p : Char → Bool) (cs : Text) : runLength p cs ≤ cs.length := by
  induction cs with
  | nil => exact Nat.le_refl _
  | cons c cs ih =>
    rw [runLength, List.length_cons]
    split <;> omega

/-- A run ends at a character that fails its test. -/
lemma runLength_append {p : Char → Bool} (hs : p s = false) (cs ds : Text) :
    runLength p (cs ++ s :: ds) = runLength p cs := by
  induction cs with
  | nil => rw [List.nil_append, runLength, runLength, hs]; rfl
  | cons c cs ih => rw [List.cons_append, runLength, runLength, ih]

/-- A string that is closed within a text does not depend on what follows it. -/
lemma stringLength_append (quote : Char) (cs ds : Text) (h : stringLength quote cs < cs.length) :
    stringLength quote (cs ++ ds) = stringLength quote cs := by
  induction cs using stringLength.induct quote with
  | case1 => cases h
  | case2 c newline =>
    rw [stringLength, if_pos newline]
    cases eq_of_beq newline
    cases ds with
    | nil => rfl
    | cons d ds => rw [List.cons_append, List.nil_append, stringLength]; rfl
  | case3 c other =>
    rw [stringLength, if_neg other] at h
    cases Nat.lt_irrefl _ h
  | case4 c d cs escape ih =>
    rw [stringLength, if_pos escape, List.length_cons, List.length_cons] at h
    rw [List.cons_append, List.cons_append, stringLength, stringLength, if_pos escape,
      if_pos escape, ih (by omega)]
  | case5 c d cs escape newline =>
    rw [List.cons_append, List.cons_append, stringLength, stringLength, if_neg escape,
      if_neg escape, if_pos newline, if_pos newline]
  | case6 c d cs escape newline closed =>
    rw [List.cons_append, List.cons_append, stringLength, stringLength, if_neg escape,
      if_neg escape, if_neg newline, if_neg newline, if_pos closed, if_pos closed]
  | case7 c d cs escape newline closed ih =>
    rw [stringLength, if_neg escape, if_neg newline, if_neg closed, List.length_cons] at h
    rw [List.cons_append, List.cons_append, stringLength, stringLength, if_neg escape,
      if_neg escape, if_neg newline, if_neg newline, if_neg closed, if_neg closed,
      ← List.cons_append, ih (by omega)]

/-- A string goes no further than its text. -/
lemma stringLength_le (quote : Char) (cs : Text) : stringLength quote cs ≤ cs.length := by
  fun_induction stringLength quote cs with
  | case1 => exact Nat.le_refl _
  | case2 => exact Nat.zero_le _
  | case3 => exact Nat.le_refl _
  | case4 c d cs _ ih =>
    rw [List.length_cons, List.length_cons]
    omega
  | case5 => exact Nat.zero_le _
  | case6 => exact Nat.succ_pos _
  | case7 c d cs _ _ _ ih =>
    rw [List.length_cons]
    omega

/-- A number ends at a character that is neither a digit nor a point. -/
lemma numberLength_append (digit : s.isDigit = false) (hs : s ≠ '.') (cs ds : Text) :
    numberLength (cs ++ s :: ds) = numberLength cs := by
  simp only [numberLength]
  rw [runLength_append digit, List.drop_append_of_le_length (runLength_le _ _)]
  -- what follows the digits decides: a point, and behind it a digit
  rcases cs.drop (runLength Char.isDigit cs) with _ | ⟨p, _ | ⟨d, es⟩⟩
  · simp [hs]
  · by_cases point : p = '.'
    · simp [point, digit]
    · simp [point]
  · by_cases point : p = '.'
    · subst point
      simp only [List.cons_append]
      rw [runLength_append digit]
    · simp [point]

/-- A number is no longer than its text. -/
lemma numberLength_le (cs : Text) : numberLength cs ≤ cs.length := by
  have whole := runLength_le Char.isDigit cs
  simp only [numberLength]
  split
  next d ds e =>
    have rest := runLength_le Char.isDigit ds
    have length := congrArg List.length e
    rw [List.length_drop, List.length_cons, List.length_cons] at length
    split <;> omega
  next => exact whole

/-- A word ends at a character that no token goes on with. -/
lemma wordLength_append (hs : separates s = true) (cs ds : Text) :
    wordLength (cs ++ s :: ds) = wordLength cs := by
  simp only [separates, Bool.and_eq_true, Bool.not_eq_true', bne_iff_ne] at hs
  have le := runLength_le isIdentifierChar cs
  simp only [wordLength]
  rw [runLength_append hs.1.1.1.1, List.take_append_of_le_length le,
    List.drop_append_of_le_length le]
  cases cs.drop (runLength isIdentifierChar cs) with
  | nil => simp [hs.1.1.1.2]
  | cons d es => rfl

/-- A word is no longer than its text. -/
lemma wordLength_le (cs : Text) : wordLength cs ≤ cs.length := by
  have plain := runLength_le isIdentifierChar cs
  simp only [wordLength]
  split
  next mark =>
    rw [Bool.and_eq_true, beq_iff_eq, List.head?_drop] at mark
    have lt := (List.getElem?_eq_some_iff.mp mark.1).1
    omega
  next => exact plain

/-- A symbol ends at a character that makes no longer one. -/
lemma measureSymbol_append (equals : s ≠ '=') (greater : s ≠ '>') (c : Char) (cs ds : Text) :
    measureSymbol c (cs ++ s :: ds) = measureSymbol c cs := by
  cases cs with
  | cons d es => rfl
  | nil => simp [measureSymbol, equals, greater]

/-- At the end of a text, a symbol is a single character. -/
lemma measureSymbol_nil (c : Char) : measureSymbol c [] = (symbolKind c, 1) := by
  simp only [measureSymbol, List.head?_nil]

/-- A symbol is one character, or two ASCII characters. -/
lemma measureSymbol_cases (c : Char) (cs : Text) :
    measureSymbol c cs = (symbolKind c, 1) ∨
      ∃ d ds, cs = d :: ds ∧ c.utf8Size = 1 ∧ d.utf8Size = 1 ∧ (measureSymbol c cs).2 = 2 := by
  cases cs with
  | nil => exact .inl (measureSymbol_nil c)
  | cons d ds =>
    unfold measureSymbol
    split
    case h_6 => exact .inl rfl
    all_goals next pair =>
      cases pair
      exact .inr ⟨_, _, rfl, rfl, rfl, rfl⟩

/-- A symbol is no longer than its text. -/
lemma measureSymbol_le (c : Char) (cs : Text) : (measureSymbol c cs).2 ≤ cs.length + 1 := by
  rcases measureSymbol_cases c cs with one | ⟨d, ds, rfl, _, _, two⟩
  · rw [one]
    exact Nat.le_add_left _ _
  · rw [two, List.length_cons]
    omega

/-- A token does not reach behind its text. -/
lemma measure_le (c : Char) (cs : Text) : (measure c cs).2 ≤ cs.length + 1 := by
  unfold measure
  split
  · exact Nat.succ_le_succ (runLength_le _ _)
  split
  · exact wordLength_le (c :: cs)
  split
  · exact numberLength_le (c :: cs)
  split
  · exact Nat.succ_le_succ (stringLength_le _ _)
  · exact measureSymbol_le c cs

/-- A token is the same in front of a character that separates tokens, if a string is. -/
lemma measure_append_of_string (hs : separates s = true)
    (string : (c == '"' || c == apostrophe) = true →
      stringLength c (cs ++ s :: ds) = stringLength c cs) :
    measure c (cs ++ s :: ds) = measure c cs := by
  have word := wordLength_append hs (c :: cs) ds
  have le := wordLength_le (c :: cs)
  simp only [separates, Bool.and_eq_true, Bool.not_eq_true', bne_iff_ne] at hs
  have number := numberLength_append (isDigit_of_isIdentifierChar hs.1.1.1.1) hs.2 (c :: cs) ds
  rw [List.cons_append] at word number
  unfold measure
  split
  next => rw [runLength_append hs.1.1.1.1]
  split
  next =>
    simp only [word]
    rw [← List.cons_append, List.take_append_of_le_length le]
  split
  next => rw [number]
  split
  next quote => rw [string quote]
  next => exact measureSymbol_append hs.1.1.2 hs.1.2 c cs ds

/-- What starts with a quote is a string. -/
lemma measure_quote (quote : (c == '"' || c == apostrophe) = true) (cs : Text) :
    measure c cs = (.stringLiteral, stringLength c cs + 1) := by
  rcases Bool.or_eq_true_iff.mp quote with e | e <;> cases eq_of_beq e <;> rfl

/-- A token that is no string is the same in front of a character that separates tokens. -/
lemma measure_append (hs : separates s = true) (ds : Text)
    (h : (measure c cs).1 = .stringLiteral → (measure c cs).2 ≤ cs.length) :
    measure c (cs ++ s :: ds) = measure c cs := by
  refine measure_append_of_string hs fun quote => ?_
  rw [measure_quote quote] at h
  exact stringLength_append c cs _ (h rfl)

/-! ## All tokens -/

/-- Tokens that are counted from further on are moved. -/
lemma tokensFrom_shift (fuel d offset : Nat) (text : Text) :
    tokensFrom fuel (d + offset) text = (tokensFrom fuel offset text).map (Token.shift d) := by
  induction fuel generalizing offset text with
  | zero => rfl
  | succ fuel ih =>
    simp only [tokensFrom]
    cases text.drop (triviaLength text) with
    | nil => rfl
    | cons c cs =>
      simp only [List.map_cons, Token.shift]
      rw [← ih, Nat.add_assoc, Nat.add_assoc]

/-- One unit of fuel for each character is enough. -/
lemma tokensFrom_fuel {fuel fuel' : Nat} (offset : Nat) {text : Text} (h : text.length ≤ fuel)
    (h' : text.length ≤ fuel') : tokensFrom fuel offset text = tokensFrom fuel' offset text := by
  induction fuel generalizing fuel' offset text with
  | zero =>
    cases List.length_eq_zero_iff.mp (Nat.le_zero.mp h)
    cases fuel' <;> rfl
  | succ fuel ih =>
    cases fuel' with
    | zero =>
      cases List.length_eq_zero_iff.mp (Nat.le_zero.mp h')
      rfl
    | succ fuel' =>
      simp only [tokensFrom]
      have length := List.length_drop (i := triviaLength text) (l := text)
      cases e : text.drop (triviaLength text) with
      | nil => rfl
      | cons c cs =>
        have pos := measure_pos c cs
        rw [e, List.length_cons] at length
        have less : ((c :: cs).drop (measure c cs).2).length ≤ cs.length := by
          rw [List.length_drop, List.length_cons]
          omega
        exact congrArg _ (ih _ (by omega) (by omega))

end Lexer

open Lexer

/-- The tokens of a text that starts with a gap and a token. -/
lemma tokenize_cons {gap cs : Text} {c : Char}
    (h : triviaLength (gap ++ c :: cs) = gap.length) :
    tokenize (gap ++ c :: cs) =
      ⟨(measure c cs).1, gap.byteSize,
        gap.byteSize + Text.byteSize ((c :: cs).take (measure c cs).2)⟩ ::
      (tokenize ((c :: cs).drop (measure c cs).2)).map
        (Token.shift (gap.byteSize + Text.byteSize ((c :: cs).take (measure c cs).2))) := by
  have pos := measure_pos c cs
  have less : ((c :: cs).drop (measure c cs).2).length ≤ gap.length + cs.length := by
    rw [List.length_drop, List.length_cons]
    omega
  rw [tokenize, tokenize, ← tokensFrom_shift, Nat.add_zero]
  rw [List.length_append, List.length_cons, ← Nat.add_assoc, tokensFrom]
  simp only [h, List.take_left, List.drop_left, Nat.zero_add]
  rw [tokensFrom_fuel _ less (Nat.le_refl _)]

/-- A text of blanks and comments has no tokens. -/
lemma tokenize_trivia {text : Text} (h : triviaLength text = text.length) : tokenize text = [] := by
  rw [tokenize]
  cases text with
  | nil => rfl
  | cons c cs => rw [List.length_cons, tokensFrom, h, List.drop_length]

/-- A text is blanks and comments, or has a first token behind them. -/
lemma exists_gap (text : Text) :
    triviaLength text = text.length ∨
      ∃ (gap : Text) (c : Char) (cs : Text),
        text = gap ++ c :: cs ∧ triviaLength text = gap.length := by
  have split := List.take_append_drop (triviaLength text) text
  have length := List.length_take_of_le (triviaLength_le text)
  cases e : text.drop (triviaLength text) with
  | nil =>
    rw [e, List.append_nil] at split
    rw [split] at length
    exact .inl length.symm
  | cons c cs => exact .inr ⟨_, c, cs, (e ▸ split).symm, length.symm⟩

/-- Blanks and comments in front of a text move its tokens. -/
lemma tokenize_gap {a b : Text} (h : triviaLength (a ++ b) = a.length + triviaLength b) :
    tokenize (a ++ b) = (tokenize b).map (Token.shift a.byteSize) := by
  rcases exists_gap b with none | ⟨gap, c, cs, rfl, length⟩
  · rw [tokenize_trivia none, tokenize_trivia]
    · rfl
    · rw [h, none, List.length_append]
  · rw [length, ← List.append_assoc, ← List.length_append] at h
    rw [tokenize_cons length, ← List.append_assoc, tokenize_cons h, List.map_cons, map_shift_shift]
    simp only [Text.byteSize_append, Token.shift, Nat.add_assoc]

/-- A blank in front of a text moves its tokens. -/
lemma tokenize_blank {s : Char} (hs : isBlank s = true) (b : Text) :
    tokenize (s :: b) = (tokenize b).map (Token.shift s.utf8Size) := by
  have h : triviaLength ([s] ++ b) = [s].length + triviaLength b := by
    rw [List.singleton_append, triviaLength, if_pos hs, Nat.add_comm]
    rfl
  exact tokenize_gap h

/-- What comes behind trivia and a line feed has its own tokens, moved. -/
lemma tokenize_newline {a : Text} (h : triviaLength a = a.length) (b : Text) :
    tokenize (a ++ '\n' :: b) = (tokenize ('\n' :: b)).map (Token.shift a.byteSize) := by
  refine tokenize_gap ?_
  rw [triviaLength_newline b a h, triviaLength, if_pos (by decide)]

/-- A gap in front of a token ends there whatever follows. -/
lemma triviaLength_gap {gap cs : Text} {c : Char} (h : triviaLength (gap ++ c :: cs) = gap.length)
    (b : Text) : triviaLength (gap ++ c :: (cs ++ b)) = gap.length := by
  rw [← List.cons_append, ← List.append_assoc, triviaLength_append, h]
  rw [h, List.length_append, List.length_cons]
  omega

/-- What stands behind the first token is shorter than the text. -/
lemma length_behind (gap : Text) (c : Char) (cs : Text) :
    ((c :: cs).drop (measure c cs).2).length < (gap ++ c :: cs).length := by
  have pos := measure_pos c cs
  rw [List.length_drop, List.length_append, List.length_cons]
  omega

/--
Induction along the tokens of a text. It is blanks and comments, or a gap and a first token stand in
front of a shorter text.
-/
@[elab_as_elim]
lemma gap_induction {motive : Text → Prop}
    (trivia : ∀ a, triviaLength a = a.length → motive a)
    (token : ∀ gap c cs, triviaLength (gap ++ c :: cs) = gap.length →
      motive ((c :: cs).drop (measure c cs).2) → motive (gap ++ c :: cs))
    (a : Text) : motive a := by
  induction n : a.length using Nat.strongRecOn generalizing a with
  | ind n ih =>
    subst n
    rcases exists_gap a with none | ⟨gap, c, cs, rfl, length⟩
    · exact trivia a none
    · exact token gap c cs length (ih _ (length_behind gap c cs) _ rfl)

/-- A gap, the first token and what stands behind it make up the text. -/
lemma byteSize_behind (gap : Text) (c : Char) (cs : Text) :
    Text.byteSize (gap ++ c :: cs) = gap.byteSize +
      Text.byteSize ((c :: cs).take (measure c cs).2) +
      Text.byteSize ((c :: cs).drop (measure c cs).2) := by
  rw [Nat.add_assoc, ← Text.byteSize_append, List.take_append_drop, Text.byteSize_append]

/--
A text is cut in front of another one if its first token does not change there and what stands
behind that token is cut as well.
-/
lemma tokenize_cons_append {gap cs : Text} {c : Char} (b : Text)
    (gapped : triviaLength (gap ++ c :: cs) = gap.length)
    (same : measure c (cs ++ b) = measure c cs)
    (rest : tokenize ((c :: cs).drop (measure c cs).2 ++ b) =
      tokenize ((c :: cs).drop (measure c cs).2) ++
        (tokenize b).map (Token.shift (Text.byteSize ((c :: cs).drop (measure c cs).2)))) :
    tokenize (gap ++ c :: cs ++ b) = tokenize (gap ++ c :: cs) ++
      (tokenize b).map (Token.shift (Text.byteSize (gap ++ c :: cs))) := by
  have le := measure_le c cs
  rw [tokenize_cons gapped, List.append_assoc, List.cons_append,
    tokenize_cons (triviaLength_gap gapped b), same, ← List.cons_append,
    List.take_append_of_le_length le, List.drop_append_of_le_length le, rest, List.map_append,
    map_shift_shift, ← byteSize_behind]
  rfl

/-- Where the last of some tokens stops. -/
def lastStopOf (ts : List Token) : Nat :=
  (ts.getLast?.map (·.stop)).getD 0

/--
A text may stand in front of a character: its last token is no string, and the text ends with it
unless a line feed follows.
-/
structure Finished (s : Char) (text : Text) : Prop where
  noString : ∀ t, (tokenize text).getLast? = some t → t.kind ≠ .stringLiteral
  flush : s = '\n' ∨ lastStopOf (tokenize text) = text.byteSize

/-- What stands behind the first token of a finished text is finished. -/
lemma Finished.tail {s : Char} {a r : Text} {t : Token} {n : Nat} (h : Finished s a)
    (e : tokenize a = t :: (tokenize r).map (Token.shift n)) (stop : t.stop = n)
    (size : a.byteSize = n + r.byteSize) : Finished s r where
  noString := by
    intro u hu
    refine h.noString (u.shift n) ?_
    rw [e, List.getLast?_cons, List.getLast?_map, hu]
    rfl
  flush := by
    refine h.flush.imp_right fun flush => ?_
    rw [lastStopOf, e, List.getLast?_cons, List.getLast?_map, size] at flush
    rw [lastStopOf]
    cases hu : (tokenize r).getLast? with
    | none =>
      simp [hu, stop] at flush
      simp [flush]
    | some u =>
      simp [hu, Token.shift] at flush
      simp [flush]

/--
The tokens of a text that is cut in front of a character which no token goes on with: those of the
first part, and those of the second part moved by the size of the first.
-/
theorem tokenize_append {s : Char} (hs : separates s = true) (b : Text) {a : Text}
    (h : Finished s a) :
    tokenize (a ++ s :: b) = tokenize a ++ (tokenize (s :: b)).map (Token.shift a.byteSize) := by
  induction a using gap_induction with
  | trivia a none =>
    have tokens := tokenize_trivia none
    rw [tokens, List.nil_append]
    rcases h.flush with rfl | flush
    · exact tokenize_newline none b
    · rw [tokens] at flush
      cases Text.eq_nil_of_byteSize flush.symm
      exact (map_shift_zero _).symm
  | token gap c cs length ih =>
    have first := tokenize_cons length
    have rest := h.tail first rfl (byteSize_behind gap c cs)
    -- the first token is the same with the second part behind it
    have same : measure c (cs ++ s :: b) = measure c cs := by
      refine measure_append hs b fun kind => ?_
      rcases Nat.lt_or_ge cs.length (measure c cs).2 with whole | le
      · rw [List.drop_eq_nil_of_le whole] at first
        exact absurd kind (h.noString _ (congrArg List.getLast? first))
      · exact le
    exact tokenize_cons_append _ length same (ih rest)

end TypeqlAssist

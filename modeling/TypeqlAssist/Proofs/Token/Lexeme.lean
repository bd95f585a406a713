import TypeqlAssist.Proofs.Token.Joining

/-!
# Lexemes

Every token of a text is the first token of what stands behind some part of the text. So its kind
is one that `Lexer.measure` gives, and the text it covers is what was measured.
-/

namespace TypeqlAssist

namespace Text

/-- The first part of a text is as many bytes as its size says. -/
lemma takeBytes?_append (a b : Text) : takeBytes? a.byteSize (a ++ b) = some a := by
  induction a with
  | nil => cases b <;> rfl
  | cons c cs ih =>
    have pos := c.utf8Size_pos
    obtain ⟨n, e⟩ : ∃ n, c.utf8Size + byteSize cs = n + 1 := ⟨_, (Nat.succ_pred (by omega)).symm⟩
    rw [byteSize_cons, List.cons_append, e, takeBytes?, if_pos (by omega), ← e,
      Nat.add_sub_cancel_left, ih]
    rfl

/-- The part of a text between two of its parts is cut out by the offsets of its ends. -/
lemma slice?_append (a w b : Text) :
    slice? (a ++ (w ++ b)) a.byteSize (a.byteSize + w.byteSize) = some w := by
  rw [slice?, if_pos (Nat.le_add_right _ _), dropBytes?_append, Option.bind_some,
    Nat.add_sub_cancel_left, takeBytes?_append]

/-- What stands between two parts of a text is the slice between their offsets. -/
lemma slice_append (a w b : Text) :
    slice (a ++ (w ++ b)) a.byteSize (a.byteSize + w.byteSize) = w := by
  rw [slice, slice?_append]
  rfl

end Text

namespace Lexer

/-- A keyword has the kind of a token. -/
lemma keyword?_isToken {word : String} {k : Kind} (h : Kind.keyword? word = some k) :
    k.isToken = true ∧ k ≠ .var := by
  unfold Kind.keyword? at h
  split at h
  all_goals first | (cases h; decide) | cases h

/-- A word is a token, and no variable. -/
lemma wordKind_isToken (word : Text) : (wordKind word).isToken = true ∧ wordKind word ≠ .var := by
  unfold wordKind
  cases h : Kind.keyword? (String.ofList word) with
  | none => decide
  | some k => exact keyword?_isToken h

/-- A single symbol is neither a production nor a variable. -/
lemma symbolKind_kind (c : Char) :
    (symbolKind c).isProduction = false ∧ symbolKind c ≠ .var := by
  unfold symbolKind
  split <;> decide

/-- A symbol is neither a production nor a variable. -/
lemma measureSymbol_kind (c : Char) (cs : Text) :
    (measureSymbol c cs).1.isProduction = false ∧ (measureSymbol c cs).1 ≠ .var := by
  unfold measureSymbol
  split
  all_goals first | decide | exact symbolKind_kind _

/-- A symbol is no label. -/
lemma measureSymbol_ne_label (c : Char) (cs : Text) : (measureSymbol c cs).1 ≠ .label := by
  have symbol : symbolKind c ≠ .label := by
    unfold symbolKind
    split <;> decide
  unfold measureSymbol
  split
  all_goals first | decide | exact symbol

/-- No token has the kind of a production. -/
lemma measure_isProduction (c : Char) (cs : Text) : (measure c cs).1.isProduction = false := by
  unfold measure
  split
  · rfl
  split
  · have token := (wordKind_isToken ((c :: cs).take (wordLength (c :: cs)))).1
    simp only [Kind.isToken, Bool.and_eq_true, Bool.not_eq_true'] at token
    exact token.1
  split
  · rfl
  split
  · rfl
  · exact (measureSymbol_kind c cs).1

mutual

/-- Blanks and comments end in front of a character that is no blank and starts no comment. -/
lemma solid_of_triviaLength {c : Char} {cs : Text} :
    ∀ gap : Text, triviaLength (gap ++ c :: cs) = gap.length → isBlank c = false ∧ c ≠ '#'
  | [], h => by
    rw [List.nil_append, triviaLength] at h
    split at h
    next => cases h
    next solid =>
      split at h
      next => cases h
      next other => exact ⟨Bool.eq_false_iff.mpr solid, fun e => other (beq_iff_eq.mpr e)⟩
  | d :: gap, h => by
    rw [List.cons_append, triviaLength, List.length_cons] at h
    split at h
    next => exact solid_of_triviaLength gap (Nat.succ_inj.mp h)
    next =>
      split at h
      next => exact solid_of_commentLength gap (Nat.succ_inj.mp h)
      next => cases h

/-- What trivia end in front of, inside a comment, is neither a blank nor a comment. -/
lemma solid_of_commentLength {c : Char} {cs : Text} :
    ∀ gap : Text, commentLength (gap ++ c :: cs) = gap.length → isBlank c = false ∧ c ≠ '#'
  | [], h => by
    rw [List.nil_append, commentLength] at h
    split at h <;> cases h
  | d :: gap, h => by
    rw [List.cons_append, commentLength, List.length_cons] at h
    split at h
    next => exact solid_of_triviaLength gap (Nat.succ_inj.mp h)
    next => exact solid_of_commentLength gap (Nat.succ_inj.mp h)

end

/-- No gap starts with a character that is no blank and starts no comment. -/
lemma triviaLength_of_solid {c : Char} (h : isBlank c = false ∧ c ≠ '#') (cs : Text) :
    triviaLength (c :: cs) = 0 := by
  simp [triviaLength, h.1, h.2]

end Lexer

/-- Every token is measured where it stands, and starts with no blank and no comment. -/
lemma tokenize_solid {text : Text} {t : Token} (h : t ∈ tokenize text) :
    ∃ (x : Text) (c : Char) (cs : Text), text = x ++ c :: cs ∧
      t = ⟨(Lexer.measure c cs).1, x.byteSize,
        x.byteSize + Text.byteSize ((c :: cs).take (Lexer.measure c cs).2)⟩ ∧
      Lexer.isBlank c = false ∧ c ≠ '#' := by
  induction text using gap_induction generalizing t with
  | trivia text none =>
    rw [tokenize_trivia none] at h
    cases h
  | token gap c cs length ih =>
    rw [tokenize_cons length] at h
    rcases List.mem_cons.mp h with rfl | h
    · exact ⟨gap, c, cs, rfl, rfl, Lexer.solid_of_triviaLength gap length⟩
    · obtain ⟨u, hu, rfl⟩ := List.mem_map.mp h
      obtain ⟨x, d, ds, e, rfl, solid⟩ := ih hu
      have split := List.take_append_drop (Lexer.measure c cs).2 (c :: cs)
      refine ⟨gap ++ (c :: cs).take (Lexer.measure c cs).2 ++ x, d, ds, ?_, ?_, solid⟩
      · rw [List.append_assoc, ← e, List.append_assoc, split]
      · simp only [Token.shift, Text.byteSize_append, Nat.add_assoc]

/-- Every token is measured at the character that it starts with. -/
lemma tokenize_measured {text : Text} {t : Token} (h : t ∈ tokenize text) :
    ∃ (x : Text) (c : Char) (cs : Text), text = x ++ c :: cs ∧
      t = ⟨(Lexer.measure c cs).1, x.byteSize,
        x.byteSize + Text.byteSize ((c :: cs).take (Lexer.measure c cs).2)⟩ := by
  obtain ⟨x, c, cs, e, measured, _⟩ := tokenize_solid h
  exact ⟨x, c, cs, e, measured⟩

/-- No token has the kind of a production. -/
lemma tokenize_isProduction {text : Text} {t : Token} (h : t ∈ tokenize text) :
    t.kind.isProduction = false := by
  obtain ⟨x, c, cs, _, rfl⟩ := tokenize_measured h
  exact Lexer.measure_isProduction c cs

end TypeqlAssist

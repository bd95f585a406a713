import TypeqlAssist.Proofs.Token.Lexeme

/-!
# A word between two texts

A text may be cut in front of a word where a token starts: the part before the cut then has the
tokens that it has alone. So a word that is a token between two texts leaves the tokens of both as
they are, and another word may take its place (`between_of_mem`).
-/

namespace TypeqlAssist

namespace Text

variable {a b x y : Text}

/-- Of one text, two first parts of the same size are the same. -/
lemma append_inj_byteSize (e : a ++ b = x ++ y) (size : a.byteSize = x.byteSize) :
    a = x ∧ b = y := by
  have first := takeBytes?_append a b
  rw [e, size, takeBytes?_append] at first
  cases Option.some.inj first
  exact ⟨rfl, List.append_cancel_left e⟩

/-- Of one text, a longer first part goes on from a shorter one, and has more bytes. -/
lemma exists_append_of_length_le (e : a ++ b = x ++ y) (le : a.length ≤ x.length) :
    ∃ z, x = a ++ z ∧ x.byteSize = a.byteSize + z.byteSize := by
  obtain ⟨z, rfl⟩ : a <+: x := List.prefix_of_prefix_length_le (List.prefix_append a b)
    (e ▸ List.prefix_append x y) le
  exact ⟨z, rfl, byteSize_append a z⟩

/-- Of one text, a first part with fewer bytes has fewer characters. -/
lemma length_le_of_byteSize_le (e : a ++ b = x ++ y) (le : a.byteSize ≤ x.byteSize) :
    a.length ≤ x.length := by
  refine Nat.le_of_not_lt fun longer => ?_
  obtain ⟨z, rfl, size⟩ := exists_append_of_length_le e.symm (Nat.le_of_lt longer)
  have none : z.byteSize = 0 := by omega
  rw [eq_nil_of_byteSize none, List.append_nil] at longer
  exact Nat.lt_irrefl _ longer

end Text

namespace Lexer

variable {c s : Char} {cs ds : Text}

/-! ## One token -/

/-- A word may start with the character. -/
def startsWord (c : Char) : Bool :=
  c.isAlpha || c == '_'

/-- The start of a word goes on with words, and with no number, symbol or blank. -/
lemma of_startsWord (h : startsWord s = true) :
    isIdentifierChar s = true ∧ s.isDigit = false ∧ isBlank s = false ∧
      ∀ d ∈ ['#', '.', '=', '>'], s ≠ d := by
  have other {d : Char} (hd : startsWord d = false) : s ≠ d := by
    rintro rfl
    rw [h] at hd
    cases hd
  have digit : s.isDigit = false := by
    rw [Bool.eq_false_iff]
    intro digit
    have below : s.val.toNat ≤ 57 := of_decide_eq_true (Bool.and_eq_true_iff.mp digit).2
    rcases Bool.or_eq_true_iff.mp h with letter | underscore
    · rcases Bool.or_eq_true_iff.mp letter with upper | lower
      · have above : 65 ≤ s.val.toNat := (of_decide_eq_true upper).1
        omega
      · have above : 97 ≤ s.val.toNat := of_decide_eq_true (Bool.and_eq_true_iff.mp lower).1
        omega
    · cases eq_of_beq underscore
      cases digit
  refine ⟨?_, digit, ?_, ?_⟩
  · rcases Bool.or_eq_true_iff.mp h with letter | underscore
    · rw [isIdentifierChar, Char.isAlphanum, letter]
      rfl
    · rw [isIdentifierChar, underscore]
      simp
  · simp [isBlank, other (d := ' ') rfl, other (d := '\t') rfl, other (d := '\n') rfl,
      other (d := '\x0c') rfl, other (d := '\r') rfl]
  · intro d hd
    refine other ?_
    simp only [List.mem_cons, List.not_mem_nil, or_false] at hd
    rcases hd with rfl | rfl | rfl | rfl <;> rfl

/-- A run that ends within a text does not reach the character behind it. -/
lemma runLength_append_of_le {p : Char → Bool} (hs : p s = true)
    (h : runLength p (cs ++ s :: ds) ≤ cs.length) :
    runLength p (cs ++ s :: ds) = runLength p cs ∧ runLength p cs < cs.length := by
  induction cs with
  | nil =>
    rw [List.nil_append, runLength, if_pos hs] at h
    cases h
  | cons c cs ih =>
    rw [List.cons_append, runLength, List.length_cons] at h
    rw [List.cons_append, runLength, runLength, List.length_cons]
    split at h
    next hc =>
      obtain ⟨same, less⟩ := ih (by omega)
      rw [if_pos hc, if_pos hc, same]
      exact ⟨rfl, by omega⟩
    next hc =>
      rw [if_neg hc, if_neg hc]
      exact ⟨rfl, by omega⟩

/-- A word that ends within a text does not depend on what follows. -/
lemma wordLength_append_of_le (hs : isIdentifierChar s = true)
    (h : wordLength (cs ++ s :: ds) ≤ cs.length) : wordLength (cs ++ s :: ds) = wordLength cs := by
  have plain : runLength isIdentifierChar (cs ++ s :: ds) ≤ cs.length := by
    simp only [wordLength] at h
    split at h <;> omega
  obtain ⟨same, less⟩ := runLength_append_of_le hs plain
  simp only [wordLength]
  rw [same, List.take_append_of_le_length (by omega), List.drop_append_of_le_length (by omega)]
  cases e : cs.drop (runLength isIdentifierChar cs) with
  | nil =>
    have := List.drop_eq_nil_iff.mp e
    omega
  | cons d es => rfl

/-- A string that ends within a text ends there without what follows too. -/
lemma stringLength_append_of_le (quote : Char)
    (h : stringLength quote (cs ++ s :: ds) ≤ cs.length) :
    stringLength quote (cs ++ s :: ds) = stringLength quote cs := by
  -- the string ends among the first characters, so the ones behind them are never looked at
  induction cs using stringLength.induct quote with
  | case1 => exact Nat.le_zero.mp h
  | case2 c newline =>
    cases eq_of_beq newline
    rfl
  | case3 c other =>
    rw [List.singleton_append, stringLength, if_neg other] at h ⊢
    rw [stringLength, if_neg other]
    rw [List.length_singleton] at h
    split at h
    · omega
    next escape =>
      rw [if_neg escape]
      split at h
      next closed => rw [if_pos closed]
      next closed =>
        rw [if_neg closed]
        omega
  | case4 c d cs escape ih =>
    rw [List.cons_append, List.cons_append, stringLength, if_pos escape] at h ⊢
    rw [List.length_cons, List.length_cons] at h
    rw [stringLength, if_pos escape, ih (by omega)]
  | case5 c d cs escape newline =>
    rw [List.cons_append, List.cons_append, stringLength, stringLength, if_neg escape,
      if_neg escape, if_pos newline, if_pos newline]
  | case6 c d cs escape newline closed =>
    rw [List.cons_append, List.cons_append, stringLength, stringLength, if_neg escape,
      if_neg escape, if_neg newline, if_neg newline, if_pos closed, if_pos closed]
  | case7 c d cs escape newline closed ih =>
    rw [List.cons_append, List.cons_append, stringLength, if_neg escape, if_neg newline,
      if_neg closed, ← List.cons_append] at h ⊢
    rw [List.length_cons] at h
    rw [stringLength, if_neg escape, if_neg newline, if_neg closed, ih (by omega)]

/-- A token that ends in front of a word is the same without it. -/
lemma measure_append_of_le (hs : startsWord s = true)
    (h : (measure c (cs ++ s :: ds)).2 ≤ cs.length + 1) :
    measure c (cs ++ s :: ds) = measure c cs := by
  obtain ⟨identifier, digit, _, other⟩ := of_startsWord hs
  unfold measure at h ⊢
  split
  next sign =>
    rw [if_pos sign] at h
    rw [(runLength_append_of_le identifier (Nat.le_of_succ_le_succ h)).1]
  next sign =>
  rw [if_neg sign] at h
  split
  next letter =>
    rw [if_pos letter, ← List.cons_append] at h
    have same := wordLength_append_of_le identifier h
    have le := wordLength_le (c :: cs)
    rw [← List.cons_append]
    simp only [same]
    rw [List.take_append_of_le_length le]
  next letter =>
  rw [if_neg letter] at h
  split
  next => rw [← List.cons_append, numberLength_append digit (other '.' (by decide))]
  next number =>
  rw [if_neg number] at h
  split
  next quote =>
    rw [if_pos quote] at h
    rw [stringLength_append_of_le c (Nat.le_of_succ_le_succ h)]
  next => exact measureSymbol_append (other '=' (by decide)) (other '>' (by decide)) c cs ds

mutual

/-- Blanks and comments go on, or end where a text does. -/
lemma le_triviaLength_append (b : Text) :
    ∀ a : Text, triviaLength a = a.length → a.length ≤ triviaLength (a ++ b)
  | [], _ => Nat.zero_le _
  | c :: cs, h => by
    have blank := le_triviaLength_append b cs
    have comment := le_commentLength_append b cs
    rw [triviaLength, List.length_cons] at h
    rw [List.cons_append, triviaLength, List.length_cons]
    split at h
    next hc => rw [if_pos hc]; omega
    next hc =>
      rw [if_neg hc]
      split at h
      next hc => rw [if_pos hc]; omega
      next hc => omega

/-- A comment up to the end of a text goes on behind it. -/
lemma le_commentLength_append (b : Text) :
    ∀ a : Text, commentLength a = a.length → a.length ≤ commentLength (a ++ b)
  | [], _ => Nat.zero_le _
  | c :: cs, h => by
    have blank := le_triviaLength_append b cs
    have comment := le_commentLength_append b cs
    rw [commentLength, List.length_cons] at h
    rw [List.cons_append, commentLength, List.length_cons]
    split at h
    next hc => rw [if_pos hc]; omega
    next hc => rw [if_neg hc]; omega

end

end Lexer

open Lexer

/-! ## All tokens -/

/-- A token is the first of its text, or one of those behind it. -/
lemma mem_tokenize_cons {gap cs : Text} {c : Char} {t : Token}
    (h : triviaLength (gap ++ c :: cs) = gap.length) (ht : t ∈ tokenize (gap ++ c :: cs)) :
    t.kind = (measure c cs).1 ∧ t.start = gap.byteSize ∧
        t.stop = gap.byteSize + Text.byteSize ((c :: cs).take (measure c cs).2) ∨
      ∃ u ∈ tokenize ((c :: cs).drop (measure c cs).2), t = u.shift
        (gap.byteSize + Text.byteSize ((c :: cs).take (measure c cs).2)) := by
  rw [tokenize_cons h] at ht
  rcases List.mem_cons.mp ht with rfl | ht
  · exact .inl ⟨rfl, rfl, rfl⟩
  · obtain ⟨u, hu, rfl⟩ := List.mem_map.mp ht
    exact .inr ⟨u, hu, rfl⟩

/-- No token starts in the gap in front of the first one. -/
lemma byteSize_le_start {gap cs : Text} {c : Char} {t : Token}
    (h : triviaLength (gap ++ c :: cs) = gap.length) (ht : t ∈ tokenize (gap ++ c :: cs)) :
    gap.byteSize ≤ t.start := by
  rcases mem_tokenize_cons h ht with ⟨_, first, _⟩ | ⟨u, _, rfl⟩
  · exact Nat.le_of_eq first.symm
  · simp only [Token.shift]
    omega

/-- No token starts in the blanks and comments that a text starts with. -/
lemma byteSize_le_start_of_trivia {a b : Text} {t : Token} (trivia : triviaLength a = a.length)
    (ht : t ∈ tokenize (a ++ b)) : a.byteSize ≤ t.start := by
  rcases exists_gap (a ++ b) with none | ⟨gap, c, cs, e, length⟩
  · rw [tokenize_trivia none] at ht
    cases ht
  · have starts : gap.byteSize ≤ t.start := byteSize_le_start (e ▸ length) (e ▸ ht)
    have goes := le_triviaLength_append b a trivia
    obtain ⟨z, rfl, size⟩ := Text.exists_append_of_length_le e (length ▸ goes)
    omega

/-- A first token that fits into a first part of the text ends there. -/
lemma measure_le_of_byteSize_le {c : Char} {cs b : Text}
    (h : Text.byteSize ((c :: (cs ++ b)).take (measure c (cs ++ b)).2) ≤
      Text.byteSize (c :: cs)) : (measure c (cs ++ b)).2 ≤ cs.length + 1 := by
  have split : (c :: (cs ++ b)).take (measure c (cs ++ b)).2 ++
      (c :: (cs ++ b)).drop (measure c (cs ++ b)).2 = (c :: cs) ++ b := List.take_append_drop _ _
  have shorter := Text.length_le_of_byteSize_le split h
  rwa [List.length_take_of_le (measure_le c (cs ++ b))] at shorter

/-- In front of a word, there are no trivia. -/
lemma triviaLength_of_startsWord {s : Char} (hs : startsWord s = true) (b : Text) :
    triviaLength (s :: b) = 0 := by
  obtain ⟨_, _, blank, other⟩ := of_startsWord hs
  exact triviaLength_of_solid ⟨blank, other '#' (by decide)⟩ b

/-- Blanks and comments in front of a word where a token starts end there. -/
lemma tokenize_trivia_append {s : Char} (hs : startsWord s = true) (b : Text) {a : Text} {t : Token}
    (trivia : triviaLength a = a.length) (ht : t ∈ tokenize (a ++ s :: b))
    (start : t.start = a.byteSize) :
    tokenize (a ++ s :: b) = (tokenize (s :: b)).map (Token.shift a.byteSize) := by
  refine tokenize_gap ?_
  rw [triviaLength_of_startsWord hs]
  rcases exists_gap (a ++ s :: b) with none | ⟨gap, c, cs, e, length⟩
  · rw [tokenize_trivia none] at ht
    cases ht
  · have after : gap.byteSize ≤ t.start := byteSize_le_start (e ▸ length) (e ▸ ht)
    have goes := le_triviaLength_append (s :: b) a trivia
    obtain ⟨z, rfl, size⟩ := Text.exists_append_of_length_le e (length ▸ goes)
    have none : z.byteSize = 0 := by omega
    rw [length, Text.eq_nil_of_byteSize none, List.append_nil]
    rfl

/-- Cut in front of a word where a token starts, a text has the tokens of both parts. -/
theorem tokenize_append_of_start {s : Char} (hs : startsWord s = true) (b : Text) {a : Text}
    {t : Token} (ht : t ∈ tokenize (a ++ s :: b)) (start : t.start = a.byteSize) :
    tokenize (a ++ s :: b) = tokenize a ++ (tokenize (s :: b)).map (Token.shift a.byteSize) := by
  induction a using gap_induction generalizing t with
  | trivia a none =>
    rw [tokenize_trivia none]
    exact tokenize_trivia_append hs b none ht start
  | token gap c cs length ih =>
    have trivia := triviaLength_gap length (s :: b)
    have pos := c.utf8Size_pos
    rw [List.append_assoc, List.cons_append] at ht
    rw [Text.byteSize_append, Text.byteSize_cons] at start
    rcases mem_tokenize_cons trivia ht with ⟨_, first, _⟩ | ⟨u, hu, rfl⟩
    · omega
    simp only [Token.shift] at start
    have le : (measure c (cs ++ s :: b)).2 ≤ cs.length + 1 := by
      apply measure_le_of_byteSize_le
      rw [Text.byteSize_cons c cs]
      omega
    have same := measure_append_of_le hs le
    have cut : (c :: (cs ++ s :: b)).drop (measure c cs).2 =
        (c :: cs).drop (measure c cs).2 ++ s :: b := by
      rw [← List.cons_append, List.drop_append_of_le_length (same ▸ le)]
    have taken : (c :: (cs ++ s :: b)).take (measure c cs).2 = (c :: cs).take (measure c cs).2 := by
      rw [← List.cons_append, List.take_append_of_le_length (same ▸ le)]
    have size := byteSize_behind gap c cs
    rw [same, cut] at hu
    rw [same, taken] at start
    rw [Text.byteSize_append, Text.byteSize_cons] at size
    exact tokenize_cons_append _ length same (ih hu (by omega))

/-- A token starts before the end of its text and stops there at the latest. -/
lemma ends_of_mem {a : Text} {t : Token} (h : t ∈ tokenize a) :
    t.start < a.byteSize ∧ t.stop ≤ a.byteSize := by
  obtain ⟨x, c, cs, rfl, rfl⟩ := tokenize_measured h
  have pos := c.utf8Size_pos
  have size := Text.byteSize_append ((c :: cs).take (measure c cs).2)
    ((c :: cs).drop (measure c cs).2)
  rw [List.take_append_drop] at size
  simp only [Text.byteSize_append, Text.byteSize_cons] at size ⊢
  omega

/-- A word that is the first token of a text, with nothing in front of it. -/
lemma tokenize_first_word {s : Char} (hs : startsWord s = true) {ws b : Text} {k : Kind}
    (h : ⟨k, 0, Text.byteSize (s :: ws)⟩ ∈ tokenize (s :: ws ++ b)) :
    tokenize (s :: ws ++ b) =
      ⟨k, 0, Text.byteSize (s :: ws)⟩ ::
        (tokenize b).map (Token.shift (Text.byteSize (s :: ws))) := by
  have trivia : triviaLength ([] ++ s :: (ws ++ b)) = 0 := triviaLength_of_startsWord hs _
  have first := tokenize_cons trivia
  rcases mem_tokenize_cons trivia h with ⟨kind, _, stop⟩ | ⟨u, _, e⟩
  · rw [Text.byteSize_nil, Nat.zero_add] at first stop
    have split := List.take_append_drop (measure s (ws ++ b)).2 (s :: ws ++ b)
    obtain ⟨taken, rest⟩ := Text.append_inj_byteSize split stop.symm
    rw [← List.cons_append, taken, rest, ← kind] at first
    exact first
  · have start := congrArg Token.start e
    obtain ⟨n, hn⟩ := Nat.exists_eq_succ_of_ne_zero (Nat.ne_of_gt (measure_pos s (ws ++ b)))
    have pos := s.utf8Size_pos
    simp only [Token.shift, hn, List.take_succ_cons, Text.byteSize_cons] at start
    omega

/-- A word is a token between two texts, and these have the tokens that they have alone. -/
def Between (a w b : Text) (k : Kind) : Prop :=
  tokenize (a ++ (w ++ b)) = tokenize a ++ ⟨k, a.byteSize, a.byteSize + w.byteSize⟩ ::
    (tokenize b).map (Token.shift (a.byteSize + w.byteSize))

/-- A word that is a token leaves the tokens before and behind it as they are. -/
theorem between_of_mem {s : Char} (hs : startsWord s = true) {a ws b : Text} {k : Kind}
    (h : ⟨k, a.byteSize, a.byteSize + Text.byteSize (s :: ws)⟩ ∈ tokenize (a ++ (s :: ws ++ b))) :
    Between a (s :: ws) b k := by
  have cut : tokenize (a ++ (s :: ws ++ b)) = tokenize a ++ _ :=
    tokenize_append_of_start hs (ws ++ b) h rfl
  have here : ⟨k, 0, Text.byteSize (s :: ws)⟩ ∈ tokenize (s :: ws ++ b) := by
    rw [cut] at h
    rcases List.mem_append.mp h with before | behind
    · exact absurd (ends_of_mem before).1 (Nat.lt_irrefl _)
    · obtain ⟨⟨k', a', b'⟩, hu, e⟩ := List.mem_map.mp behind
      obtain ⟨rfl, start, stop⟩ := Token.mk.inj e
      cases Nat.add_eq_left.mp start
      cases Nat.add_left_cancel stop
      exact hu
  rw [Between, cut, ← List.cons_append, tokenize_first_word hs here, List.map_cons,
    map_shift_shift]
  rfl

end TypeqlAssist

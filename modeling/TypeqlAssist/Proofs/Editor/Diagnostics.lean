import TypeqlAssist.Proofs.Editor.Marks
import TypeqlAssist.Proofs.Grammar.Gaps

/-!
# Where diagnostics stand

The errors of a text are in order, and unexpected input is marked where it stands. The mark of a gap
reaches back to the start of a word, which knows of blanks and nothing of tokens. So it may start in
front of unexpected input that is reported before the gap (`diagnostics_order`), and it ends with
the last token in front of the gap unless a comment follows the token or the token itself ends in a
blank (`marked_gap`). Both speak of what editors see in texts of fewer than 2^32 bytes
(`diagnostics_le`).
-/

namespace TypeqlAssist

open Grammar

namespace Editor

variable {text a b : Text} {n : Nat} {e e' : SyntaxError}

/-! ## The errors of a text -/

/-- The ends of an error are boundaries of the text. -/
structure Bounded (text : Text) (e : SyntaxError) : Prop where
  le : e.start ≤ e.stop
  start : text.isBoundary e.start = true
  stop : text.isBoundary e.stop = true

/-- The ends of every error of a text are boundaries. -/
lemma errors_bounded (he : e ∈ (parse text).errors) : Bounded text e := by
  rw [errors_of_text] at he
  obtain ⟨f, hf, rfl⟩ := List.mem_map.mp he
  obtain ⟨_, le, start, stop⟩ := (reading_of_text text).ranged.of_mem hf
  exact ⟨le, start, stop⟩

/-- No error begins before the one in front of it ends. -/
lemma errors_separated (text : Text) :
    (parse text).errors.Pairwise fun e e' => e.stop ≤ e'.start := by
  rw [errors_of_text, List.pairwise_map]
  exact (reading_of_text text).ranged.separated

/-- Missing input has no width. -/
lemma codeOf_eq_missingInput : codeOf e = .missingInput ↔ e.start = e.stop := by
  simp [codeOf]

/-- Unexpected input has a width. -/
lemma Bounded.lt_of_unexpectedInput (h : Bounded text e) (code : codeOf e = .unexpectedInput) :
    e.start < e.stop := by
  refine Nat.lt_of_le_of_ne h.le fun flat => ?_
  rw [codeOf_eq_missingInput.mpr flat] at code
  cases code

/-- What is marked for an error begins at a boundary, and not behind the error. -/
lemma Bounded.markedSpan (h : Bounded text e) :
    text.isBoundary (markedSpan text e).1 = true ∧
      (markedSpan text e).1 ≤ e.start := by
  rw [Editor.markedSpan]
  cases codeOf e with
  | unexpectedInput => exact ⟨h.start, Nat.le_refl _⟩
  | missingInput =>
    obtain ⟨le, le', start, _⟩ := wordBefore_spec h.start
    exact ⟨start, Nat.le_trans le le'⟩

/--
No line and no column of a diagnostic is larger than the text, so that 32 bits hold them in a text
of fewer than 2^32 bytes.
-/
theorem diagnostics_le (text : Text) : ∀ d ∈ diagnostics text, ∀ p ∈ [d.range.start, d.range.stop],
    p.line ≤ text.byteSize ∧ p.character ≤ text.byteSize := by
  intro d hd p hp
  obtain ⟨e, _, rfl⟩ := List.mem_map.mp hd
  rcases List.mem_pair.mp hp with rfl | rfl
  · exact positionOf_le text (markedSpan text e).1
  · exact positionOf_le text (markedSpan text e).2

/-- The word marked for missing input begins in front of unexpected input. -/
def Overtakes (text : Text) (e e' : SyntaxError) : Prop :=
  codeOf e = .unexpectedInput ∧ codeOf e' = .missingInput ∧ (wordBefore text e'.start).1 < e.start

/-- The marks of two errors are in order unless the second one overtakes the first one. -/
lemma markedSpan_le_iff (h : Bounded text e) (h' : Bounded text e') (le : e.stop ≤ e'.start) :
    (markedSpan text e).1 ≤ (markedSpan text e').1 ↔ ¬ Overtakes text e e' := by
  have before : e.start ≤ e'.start := Nat.le_trans h.le le
  cases code' : codeOf e' with
  | unexpectedInput =>
    have apart : ¬ Overtakes text e e' := fun ahead => absurd (code'.symm.trans ahead.2.1) (by decide)
    have first := Nat.le_trans h.markedSpan.2 before
    simp only [apart, not_false_iff, iff_true]
    simpa only [markedSpan, code'] using first
  | missingInput =>
    cases code : codeOf e with
    | unexpectedInput =>
      simp only [markedSpan, Overtakes, code, code', true_and, Nat.not_lt]
    | missingInput =>
      have apart : ¬ Overtakes text e e' := fun ahead => absurd (code.symm.trans ahead.1) (by decide)
      have order := wordBefore_monotoneOn text h.start h'.start before
      simp only [apart, not_false_iff, iff_true]
      simpa only [markedSpan, code, code'] using order

/--
There is one diagnostic for each error. Of two diagnostics the one of the earlier error starts
first, or at the same position, unless the error is unexpected input and the other one is missing
input whose marked word begins in front of it. Where all unexpected input begins a word, all
diagnostics are in order. An editor sees this order in a text of fewer than 2^32 bytes, where its
32 bits hold every line and column (`diagnostics_le`).
-/
theorem diagnostics_order (text : Text) :
    (diagnostics text).length = (parse text).errors.length ∧
    (((parse text).errors.zip (diagnostics text)).Pairwise fun p q =>
      p.2.range.start ≤ q.2.range.start ↔ ¬ Overtakes text p.1 q.1) ∧
    ((∀ e ∈ (parse text).errors, codeOf e = .unexpectedInput → OpensWord text e.start) →
      (diagnostics text).Pairwise fun d d' => d.range.start ≤ d'.range.start) := by
  have order : (parse text).errors.Pairwise fun e e' =>
      ((diagnosticOf text e).range.start ≤ (diagnosticOf text e').range.start ↔
        ¬ Overtakes text e e') := by
    refine (errors_separated text).imp_of_mem fun he he' le => ?_
    have bounded := errors_bounded he
    have bounded' := errors_bounded he'
    exact ((positionOf_strictMonoOn text).le_iff_le bounded.markedSpan.1 bounded'.markedSpan.1).trans
      (markedSpan_le_iff bounded bounded' le)
  refine ⟨List.length_map _, ?_, fun opens => ?_⟩
  · rw [diagnostics, ← List.map_id (parse text).errors, List.map_map, List.zip_map',
      List.pairwise_map]
    exact order
  · rw [diagnostics, List.pairwise_map]
    refine (order.and (errors_separated text)).imp_of_mem fun he he' both => ?_
    obtain ⟨iff, le⟩ := both
    refine iff.mpr fun ahead => ?_
    obtain ⟨code, _, earlier⟩ := ahead
    have before := Nat.lt_of_lt_of_le ((errors_bounded he).lt_of_unexpectedInput code) le
    have start := le_wordBefore (errors_bounded he').start (opens _ he code) before
    exact absurd earlier (Nat.not_lt.mpr start)

/-- There is no order where a gap follows unexpected input within one word. -/
theorem diagnostics_out_of_order :
    ¬ (diagnostics "match $x isa person,foo".toList).IsChain fun d d' =>
      d.range.start ≤ d'.range.start := by
  rw [diagnostics, errors_of_text]
  decide +kernel

/-! ## The token in front of a gap -/

/-- A letter is no blank. -/
lemma isBlankChar_of_isAlpha {c : Char} (h : (c.isAlpha || c == '_') = true) :
    Text.isBlankChar c = false := by
  have range : (65 ≤ c.toNat ∧ c.toNat ≤ 90) ∨ (97 ≤ c.toNat ∧ c.toNat ≤ 122) ∨ c.toNat = 95 := by
    rcases Bool.or_eq_true_iff.mp h with alpha | line
    · rcases Bool.or_eq_true_iff.mp alpha with upper | lower
      · have upper : 'A'.val ≤ c.val ∧ c.val ≤ 'Z'.val := of_decide_eq_true upper
        exact .inl (upper.imp UInt32.le_iff_toNat_le.mp UInt32.le_iff_toNat_le.mp)
      · have lower : 'a'.val ≤ c.val ∧ c.val ≤ 'z'.val :=
          (Bool.and_eq_true_iff.mp lower).imp of_decide_eq_true of_decide_eq_true
        exact .inr (.inl (lower.imp UInt32.le_iff_toNat_le.mp UInt32.le_iff_toNat_le.mp))
    · rw [eq_of_beq line]
      exact .inr (.inr rfl)
  rw [Text.isBlankChar, Bool.eq_false_iff]
  generalize c.toNat = n at range ⊢
  simp only [ne_eq, Bool.or_eq_true, Bool.and_eq_true, decide_eq_true_eq, beq_iff_eq]
  omega

/-- A symbol opens no query. -/
lemma measureSymbol_opensQuery (c : Char) (cs : Text) :
    opensQuery (Lexer.measureSymbol c cs).1 = false := by
  have symbol : opensQuery (Lexer.symbolKind c) = false := by
    unfold Lexer.symbolKind
    split <;> rfl
  unfold Lexer.measureSymbol
  split
  all_goals first | rfl | exact symbol

/-- A keyword starts with no blank. -/
lemma measure_opensQuery {c : Char} {cs : Text} (h : opensQuery (Lexer.measure c cs).1 = true) :
    Text.isBlankChar c = false := by
  unfold Lexer.measure at h
  split at h
  next => cases h
  split at h
  next word => exact isBlankChar_of_isAlpha word
  split at h
  next => cases h
  split at h
  next => cases h
  · rw [measureSymbol_opensQuery] at h
    cases h

/-- A gap of a text stands behind a keyword. -/
lemma errors_gap (he : e ∈ (parse text).errors) (gap : e.start = e.stop) :
    ∃ t ∈ tokenize text, opensQuery t.kind = true ∧ t.stop ≤ e.start := by
  rw [errors_of_text] at he
  obtain ⟨f, hf, rfl⟩ := List.mem_map.mp he
  exact readDocument_gap text.isBoundary_byteSize (tokenize_spaced text).tight.2 f hf gap

/-- The token is the last one that ends in front of an offset or there. -/
def IsLastToken (text : Text) (n : Nat) (t : Token) : Prop :=
  ∃ ts us, tokenize text = ts ++ t :: us ∧ t.stop ≤ n ∧ ∀ u ∈ us, n < u.stop

/-- Only blanks stand between a token and an offset, and the token itself ends in none. -/
def BlankBehind (text : Text) (n : Nat) (t : Token) : Prop :=
  Text.isBlank (text.slice t.stop n) = true ∧
    ∀ c ∈ (text.slice t.start t.stop).getLast?, Text.isBlankChar c = false

/-- Some token is the last to end in front of an offset, if any does. -/
lemma exists_last {ts : List Token} (h : ∃ t ∈ ts, t.stop ≤ n) :
    ∃ front t back, ts = front ++ t :: back ∧ t.stop ≤ n ∧ ∀ u ∈ back, n < u.stop := by
  induction ts with
  | nil =>
    obtain ⟨t, ht, _⟩ := h
    cases ht
  | cons u us ih =>
    by_cases later : ∃ t ∈ us, t.stop ≤ n
    · obtain ⟨front, t, back, rfl, le, lt⟩ := ih later
      exact ⟨u :: front, t, back, rfl, le, lt⟩
    · push Not at later
      obtain ⟨t, ht, le⟩ := h
      rcases List.mem_cons.mp ht with rfl | ht
      · exact ⟨[], t, us, rfl, le, later⟩
      · exact absurd le (Nat.not_le.mpr (later t ht))

/-- A text is cut at the ends of a token and at an offset behind it. -/
lemma exists_token_split {t : Token} (ht : t ∈ tokenize text) (hn : text.isBoundary n = true)
    (le : t.stop ≤ n) :
    ∃ x w gap b : Text, text = x ++ (w ++ (gap ++ b)) ∧ w ≠ [] ∧ t.start = x.byteSize ∧
      t.stop = x.byteSize + w.byteSize ∧ n = x.byteSize + w.byteSize + gap.byteSize := by
  obtain ⟨x, c, cs, split, rfl⟩ := tokenize_measured ht
  have pos := Lexer.measure_pos c cs
  have cut := List.take_append_drop (Lexer.measure c cs).2 (c :: cs)
  obtain ⟨a, b, whole, rfl⟩ := Text.exists_append_of_isBoundary hn
  have some : (c :: cs).take (Lexer.measure c cs).2 ≠ [] := by
    simp [Nat.ne_of_gt pos]
  generalize (c :: cs).take _ = w at le cut some ⊢
  rw [← cut, ← List.append_assoc] at split
  obtain ⟨gap, rfl, rest⟩ :=
    Text.exists_between (whole.symm.trans split) (by rw [Text.byteSize_append]; exact le)
  refine ⟨x, w, gap, b, ?_, some, rfl, rfl, ?_⟩
  · rw [whole]
    simp only [List.append_assoc]
  · rw [Text.byteSize_append, Text.byteSize_append]

/-- What stands in front of a gap is not blank. -/
lemma exists_lastWord_gap (he : e ∈ (parse text).errors) (gap : e.start = e.stop) :
    ∃ a b : Text, text = a ++ b ∧ e.start = a.byteSize ∧ Nonempty (LastWord a) := by
  obtain ⟨t, ht, opens, before⟩ := errors_gap he gap
  obtain ⟨x, c, cs, split, rfl⟩ := tokenize_measured ht
  have width := (tokenize_spaced text).width _ ht
  obtain ⟨z, b, whole, size, word⟩ := exists_lastWord_front (errors_bounded he).start split
    (measure_opensQuery opens) (Nat.lt_of_lt_of_le width before)
  exact ⟨x ++ c :: z, b, whole, size, word⟩

/-- The word in front of an offset ends where a token does if only blanks follow the token. -/
lemma wordBefore_eq_stop_iff {t : Token} (w : LastWord a) (ht : t ∈ tokenize (a ++ b))
    (le : t.stop ≤ a.byteSize) : (wordBefore (a ++ b) a.byteSize).2 = t.stop ↔
      BlankBehind (a ++ b) a.byteSize t := by
  have mark : (wordBefore (a ++ b) a.byteSize).2 = (Text.trimEnd a).byteSize := by
    rw [w.wordBefore_eq, w.trimEnd_eq, Text.byteSize_append]
  obtain ⟨x, v, gap, d, cut, some, start, stop, size⟩ :=
    exists_token_split ht (Text.isBoundary_append a b) le
  have front : a = x ++ v ++ gap := by
    have same : a ++ b = x ++ v ++ gap ++ d := by
      simpa only [List.append_assoc] using cut
    refine (Text.append_inj_byteSize same ?_).1
    rw [size, Text.byteSize_append, Text.byteSize_append]
  have token : (a ++ b).slice t.start t.stop = v := by
    rw [cut, start, stop, Text.slice_append]
  have between : (a ++ b).slice t.stop a.byteSize = gap := by
    rw [cut, stop, size, ← List.append_assoc, ← Text.byteSize_append, Text.slice_append]
  rw [BlankBehind, mark, token, between, stop, ← Text.byteSize_append, front, byteSize_trimEnd_iff,
    List.getLast?_append_of_ne_nil _ some]

/-- Missing input is marked at the word before it. -/
lemma range_of_gap (gap : e.start = e.stop) :
    (diagnosticOf text e).range =
      rangeOf text (wordBefore text e.start).1 (wordBefore text e.start).2 := by
  rw [diagnosticOf, markedSpan, codeOf_eq_missingInput.mpr gap]

/--
A gap is marked on the last word in front of it, so that its mark is never empty. There always is a
token in front of a gap, too, and the mark ends with the last one exactly if only blanks stand
between the token and the gap and the token itself ends in none. An editor sees these positions in a
text of fewer than 2^32 bytes, where its 32 bits hold every line and column (`diagnostics_le`).
-/
theorem marked_gap (he : e ∈ (parse text).errors) (gap : e.start = e.stop) :
    (diagnosticOf text e).range.start < (diagnosticOf text e).range.stop ∧
    (∃ w : LastWord (text.takeUpTo e.start), (diagnosticOf text e).range =
      rangeOf text w.front.byteSize (w.front.byteSize + w.word.byteSize)) ∧
    (∃ t, IsLastToken text e.start t) ∧
    ∀ t, IsLastToken text e.start t →
      ((diagnosticOf text e).range.stop = positionOf text t.stop ↔
        BlankBehind text e.start t) := by
  obtain ⟨k, hk, _, before⟩ := errors_gap he gap
  obtain ⟨ts, t, us, split, le, later⟩ := exists_last ⟨k, hk, before⟩
  obtain ⟨_, _, start, stop⟩ := wordBefore_spec (errors_bounded he).start
  obtain ⟨a, b, rfl, size, ⟨w⟩⟩ := exists_lastWord_gap he gap
  rw [range_of_gap gap]
  refine ⟨?_, ?_, ⟨t, ts, us, split, le, later⟩, ?_⟩
  · refine positionOf_strictMonoOn _ start stop ?_
    rw [size, w.wordBefore_eq]
    exact Nat.lt_add_of_pos_right w.word_pos
  · rw [size, w.wordBefore_eq, Text.takeUpTo_append]
    exact ⟨w, rfl⟩
  · rintro t ⟨ts, us, split, le, _⟩
    have ht : t ∈ tokenize (a ++ b) := split ▸ List.mem_append_right ts (.head us)
    have boundary := ((tokenize_spaced (a ++ b)).ends t ht).2
    refine ((positionOf_strictMonoOn _).eq_iff_eq stop boundary).trans ?_
    rw [size] at le ⊢
    exact wordBefore_eq_stop_iff w ht le

/-- The gap at the end of `match $x isa ` is marked on the keyword in front of the blank. -/
theorem marked_gap_behind_keyword :
    (diagnosticOf "match $x isa ".toList ⟨"expected a type", 13, 13⟩).range.stop =
      positionOf "match $x isa ".toList 12 := by
  have mem : ⟨"expected a type", 13, 13⟩ ∈ (parse "match $x isa ".toList).errors := by
    rw [errors_of_text]
    decide +kernel
  have last : IsLastToken "match $x isa ".toList 13 ⟨.kwIsa, 9, 12⟩ :=
    ⟨[⟨.kwMatch, 0, 5⟩, ⟨.var, 6, 8⟩], [], by decide +kernel, by decide, by decide⟩
  have keyword : Text.slice "match $x isa ".toList 9 12 = ['i', 's', 'a'] := by
    decide +kernel
  refine ((marked_gap mem rfl).2.2.2 _ last).mpr ⟨by decide +kernel, fun c hc => ?_⟩
  have hc : c ∈ ['i', 's', 'a'].getLast? := keyword ▸ hc
  cases hc
  rfl

/-- A comment in front of a gap is marked and not the token in front of the comment. -/
theorem marked_comment :
    ∃ e ∈ (parse "match $x isa # a".toList).errors, e.start = e.stop ∧
      ∃ t, IsLastToken "match $x isa # a".toList e.start t ∧
        (diagnosticOf "match $x isa # a".toList e).range.stop ≠
          positionOf "match $x isa # a".toList t.stop := by
  refine ⟨⟨"expected a type", 16, 16⟩, ?_, rfl, ⟨.kwIsa, 9, 12⟩, ?_, ?_⟩
  · rw [errors_of_text]
    decide +kernel
  · exact ⟨[⟨.kwMatch, 0, 5⟩, ⟨.var, 6, 8⟩], [], by decide +kernel, by decide, by decide⟩
  · decide +kernel

end Editor

end TypeqlAssist

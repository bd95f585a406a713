import Mathlib.Data.Prod.Lex
import Mathlib.Order.Monotone.Basic
import TypeqlAssist.Editor.Diagnostic
import TypeqlAssist.Proofs.Editor.Position
import TypeqlAssist.Proofs.Token.Exchange

/-!
# Marks of missing input

Missing input is marked on the last word in front of its offset, where a word is what stands
between blanks. A `LastWord` is the one way to cut a text at its last word. For a later offset no
earlier word is marked (`wordBefore_monotoneOn`), and editor positions grow with the boundaries of
a text (`positionOf_strictMonoOn`), so order among offsets is order among positions.
-/

namespace TypeqlAssist

namespace Editor

/-! ## The order of positions -/

namespace Position

/-- The line and then the column. -/
def key (p : Position) : ℕ ×ₗ ℕ :=
  toLex (p.line, p.character)

/-- A position is told by its line and column. -/
lemma key_injective : Function.Injective key := by
  intro p q h
  cases p
  cases q
  simpa [key] using h

/-- Positions are ordered by their lines, and on one line by their columns. -/
instance : LinearOrder Position :=
  LinearOrder.lift' key key_injective

/-- One position is before another by its line, or by its column on the same line. -/
lemma lt_iff {p q : Position} :
    p < q ↔ p.line < q.line ∨ p.line = q.line ∧ p.character < q.character :=
  Prod.Lex.lt_iff

end Position

/-- A single character leads to a later position. -/
lemma lt_positionAfter_singleton (p : Position) (c : Char) : p < positionAfter p [c] := by
  rw [positionAfter, positionAfter]
  split
  · exact Position.lt_iff.mpr (.inl (Nat.lt_succ_self _))
  · exact Position.lt_iff.mpr (.inr ⟨rfl, Nat.lt_add_of_pos_right (charUnits_pos c)⟩)

/-- Every character leads to a later position. -/
lemma lt_positionAfter (p : Position) (c : Char) (cs : Text) : p < positionAfter p (c :: cs) := by
  induction cs generalizing p c with
  | nil => exact lt_positionAfter_singleton p c
  | cons d ds ih => exact (lt_positionAfter_singleton p c).trans (ih _ d)

/-- A later boundary has a later position. -/
lemma positionOf_strictMonoOn (text : Text) :
    StrictMonoOn (positionOf text) {n | text.isBoundary n = true} := by
  intro m hm n hn lt
  obtain ⟨a, b, rfl, rfl⟩ := Text.exists_append_of_isBoundary hm
  obtain ⟨c, d, whole, rfl⟩ := Text.exists_append_of_isBoundary hn
  obtain ⟨x, rfl, _⟩ := Text.exists_between whole.symm (Nat.le_of_lt lt)
  rw [positionOf, Text.takeUpTo_append, whole, positionOf, Text.takeUpTo_append,
    positionAfter_append]
  cases x with
  | nil =>
    rw [List.append_nil] at lt
    exact absurd lt (Nat.lt_irrefl _)
  | cons e es => exact lt_positionAfter _ e es

/-! ## The last word of a text -/

/-- A last word: what stands before it, the word, and the blanks behind it. -/
structure LastWord (text : Text) where
  front : Text
  word : Text
  blanks : Text
  whole : text = front ++ (word ++ blanks)
  some : word ≠ []
  solid : ∀ c ∈ word, Text.isBlankChar c = false
  blank : ∀ c ∈ blanks, Text.isBlankChar c = true
  opened : ∀ c ∈ front.getLast?, Text.isBlankChar c = true

/-- A word starts at an offset: there is no blank there, and a blank or nothing before it. -/
def OpensWord (text : Text) (n : Nat) : Prop :=
  ∃ (x : Text) (c : Char) (y : Text), text = x ++ c :: y ∧ x.byteSize = n ∧
    Text.isBlankChar c = false ∧ ∀ d ∈ x.getLast?, Text.isBlankChar d = true

variable {a b s : Text}

/-- Nothing is left without trailing blanks if there are only blanks. -/
lemma trimEnd_eq_nil : Text.trimEnd a = [] ↔ Text.isBlank a = true := by
  rw [Text.isBlank, List.all_eq_true]
  exact List.rdropWhile_eq_nil_iff

/-- A first part is what is left without trailing blanks if blanks follow it and it ends in none. -/
lemma byteSize_trimEnd_iff : (Text.trimEnd (a ++ s)).byteSize = a.byteSize ↔
    Text.isBlank s = true ∧ ∀ c ∈ a.getLast?, Text.isBlankChar c = false := by
  constructor
  · intro size
    have both : Text.trimEnd (a ++ s) ++ (a ++ s).rtakeWhile Text.isBlankChar = a ++ s :=
      List.rdropWhile_append_rtakeWhile
    obtain ⟨front, back⟩ := Text.append_inj_byteSize both size
    refine ⟨List.all_eq_true.mpr fun c hc => ?_, fun c last => ?_⟩
    · rw [← back] at hc
      exact List.mem_rtakeWhile_imp hc
    · rw [← front] at last
      exact Text.getLast?_rdropWhile _ _ c last
  · rintro ⟨blank, solid⟩
    exact congrArg Text.byteSize (Text.rdropWhile_append (List.all_eq_true.mp blank) solid)

/-- What is not blank has a last word. -/
lemma exists_lastWord (h : Text.isBlank a = false) : Nonempty (LastWord a) := by
  have some : Text.trimEnd a ≠ [] := fun none => Bool.eq_false_iff.mp h (trimEnd_eq_nil.mp none)
  have solid (c : Char) : (!Text.isBlankChar c) = true ↔ Text.isBlankChar c = false := by
    rw [Bool.not_eq_true']
  refine ⟨{
    front := (Text.trimEnd a).rdropWhile fun c => !Text.isBlankChar c
    word := Text.lastWord (Text.trimEnd a)
    blanks := a.rtakeWhile Text.isBlankChar
    whole := ?_
    some := ?_
    solid := ?_
    blank := fun c hc => List.mem_rtakeWhile_imp hc
    opened := ?_ }⟩
  · have word : (Text.trimEnd a).rdropWhile (fun c => !Text.isBlankChar c) ++
        Text.lastWord (Text.trimEnd a) = Text.trimEnd a := List.rdropWhile_append_rtakeWhile
    rw [← List.append_assoc, word]
    exact List.rdropWhile_append_rtakeWhile.symm
  · intro none
    have last := Text.getLast?_rdropWhile _ a _ (List.getLast?_eq_some_getLast some)
    exact List.rtakeWhile_eq_nil_iff.mp none some ((solid _).mpr last)
  · intro c hc
    have inner : (!Text.isBlankChar c) = true :=
      List.mem_rtakeWhile_imp (p := fun c => !Text.isBlankChar c) hc
    exact (solid c).mp inner
  · intro c last
    simpa using Text.getLast?_rdropWhile _ _ c last

/-- The word before an offset is the last one in front of it, or none. -/
lemma wordBefore_append (a b : Text) : wordBefore (a ++ b) a.byteSize =
    if (Text.lastWord (Text.trimEnd a)).isEmpty then (a.byteSize, a.byteSize)
    else ((Text.trimEnd a).byteSize - (Text.lastWord (Text.trimEnd a)).byteSize,
      (Text.trimEnd a).byteSize) := by
  have within : min a.byteSize (Text.byteSize (a ++ b)) = a.byteSize := by
    rw [Text.byteSize_append]
    omega
  simp only [wordBefore, within, Text.takeUpTo_append]

/-- Behind blanks alone there is no word to mark. -/
lemma wordBefore_of_isBlank (h : Text.isBlank a = true) (b : Text) :
    wordBefore (a ++ b) a.byteSize = (a.byteSize, a.byteSize) := by
  rw [wordBefore_append, trimEnd_eq_nil.mpr h]
  rfl

namespace LastWord

/-- Without trailing blanks, a text ends in its last word. -/
lemma trimEnd_eq (w : LastWord a) : Text.trimEnd a = w.front ++ w.word := by
  have last : ∀ c ∈ (w.front ++ w.word).getLast?, Text.isBlankChar c = false := by
    intro c last
    rw [List.getLast?_append_of_ne_nil _ w.some] at last
    exact w.solid c (List.mem_of_getLast? last)
  have cut := Text.rdropWhile_append w.blank last
  rw [List.append_assoc, ← w.whole] at cut
  exact cut

/-- The last word in front of an offset is marked. -/
lemma wordBefore_eq (w : LastWord a) (b : Text) :
    wordBefore (a ++ b) a.byteSize =
      (w.front.byteSize, w.front.byteSize + w.word.byteSize) := by
  have word : Text.lastWord (w.front ++ w.word) = w.word := by
    refine Text.rtakeWhile_append (fun c hc => ?_) (fun c hc => ?_)
    · rw [w.solid c hc]
      rfl
    · rw [w.opened c hc]
      rfl
  rw [wordBefore_append, w.trimEnd_eq, word, if_neg (by simpa using w.some), Text.byteSize_append,
    Nat.add_sub_cancel]

/-- A last word has a width. -/
lemma word_pos (w : LastWord a) : 0 < w.word.byteSize := by
  have some := w.some
  cases e : w.word with
  | nil => exact absurd e some
  | cons c cs => exact Nat.add_pos_left c.utf8Size_pos _

/-- The last word of a text starts no earlier than any other one. -/
lemma le_front (w : LastWord a) {n : Nat} (h : OpensWord a n) : n ≤ w.front.byteSize := by
  obtain ⟨x, c, y, split, rfl, solid, opened⟩ := h
  by_contra earlier
  obtain ⟨z, rfl, rest⟩ :=
    Text.exists_between (split.symm.trans w.whole) (Nat.le_of_not_le earlier)
  have some : z ≠ [] := by
    rintro rfl
    exact earlier (by rw [List.append_nil])
  have last := List.getLast?_eq_some_getLast some
  -- what stands between the starts ends with a blank, in the word or behind it
  have blank := opened _ ((List.getLast?_append_of_ne_nil _ some).trans last)
  rcases List.append_eq_append_iff.mp rest with ⟨v, rfl, behind⟩ | ⟨v, inside, _⟩
  · have blank := w.blank c (behind ▸ List.mem_append_right _ (.head _))
    rw [solid] at blank
    cases blank
  · have solid := w.solid _ (inside ▸ List.mem_append_left _ (List.mem_of_getLast? last))
    rw [solid] at blank
    cases blank

/-- The last word starts behind the blanks with which a text starts. -/
lemma size_le_front (w : LastWord (a ++ b)) (h : Text.isBlank a = true) :
    a.byteSize ≤ w.front.byteSize := by
  by_contra earlier
  obtain ⟨x, inside, rest⟩ := Text.exists_between w.whole (Nat.le_of_not_le earlier)
  cases x with
  | nil => exact earlier (congrArg Text.byteSize (inside.trans (List.append_nil _))).le
  | cons c cs =>
    obtain ⟨d, ds, word⟩ := List.exists_cons_of_ne_nil w.some
    rw [word] at rest
    obtain ⟨rfl, _⟩ := List.cons_eq_cons.mp rest
    have blank := List.all_eq_true.mp h d (inside ▸ List.mem_append_right _ (.head _))
    rw [w.solid d (word ▸ .head _)] at blank
    cases blank

/-- The last word of a text starts a word, whatever follows. -/
lemma opensWord (w : LastWord a) (b : Text) : OpensWord (a ++ b) w.front.byteSize := by
  obtain ⟨c, cs, word⟩ := List.exists_cons_of_ne_nil w.some
  refine ⟨w.front, c, cs ++ w.blanks ++ b, ?_, rfl, w.solid c (word ▸ .head _), w.opened⟩
  conv_lhs => rw [w.whole, word]
  simp

end LastWord

/-! ## Marks -/

variable {text : Text} {m n : Nat}

/-- A mark of missing input stands between boundaries in front of its offset. -/
lemma wordBefore_spec (h : text.isBoundary n = true) :
    (wordBefore text n).1 ≤ (wordBefore text n).2 ∧ (wordBefore text n).2 ≤ n ∧
      text.isBoundary (wordBefore text n).1 = true ∧
      text.isBoundary (wordBefore text n).2 = true := by
  obtain ⟨a, b, rfl, rfl⟩ := Text.exists_append_of_isBoundary h
  cases blank : Text.isBlank a with
  | true =>
    rw [wordBefore_of_isBlank blank]
    exact ⟨Nat.le_refl _, Nat.le_refl _, h, h⟩
  | false =>
    obtain ⟨w⟩ := exists_lastWord blank
    have whole : a ++ b = w.front ++ (w.word ++ (w.blanks ++ b)) := by
      conv_lhs => rw [w.whole]
      simp only [List.append_assoc]
    have size := congrArg Text.byteSize w.whole
    have start := Text.isBoundary_append w.front (w.word ++ (w.blanks ++ b))
    have stop := Text.isBoundary_append (w.front ++ w.word) (w.blanks ++ b)
    rw [← whole] at start
    rw [List.append_assoc, ← whole, Text.byteSize_append] at stop
    rw [Text.byteSize_append, Text.byteSize_append] at size
    rw [w.wordBefore_eq]
    exact ⟨Nat.le_add_right _ _, by dsimp only; omega, start, stop⟩

/-- For a later gap no earlier word is marked. -/
lemma wordBefore_monotoneOn (text : Text) :
    MonotoneOn (fun n => (wordBefore text n).1) {n | text.isBoundary n = true} := by
  intro m hm n hn le
  have within := wordBefore_spec hm
  obtain ⟨a, b, rfl, rfl⟩ := Text.exists_append_of_isBoundary hm
  obtain ⟨c, d, whole, rfl⟩ := Text.exists_append_of_isBoundary hn
  obtain ⟨x, rfl, rfl⟩ := Text.exists_between whole.symm le
  dsimp only
  rw [← List.append_assoc]
  cases all : Text.isBlank (a ++ x) with
  | true =>
    rw [wordBefore_of_isBlank all, List.append_assoc]
    omega
  | false =>
    obtain ⟨w⟩ := exists_lastWord all
    rw [w.wordBefore_eq, List.append_assoc]
    cases blank : Text.isBlank a with
    | true =>
      rw [wordBefore_of_isBlank blank]
      exact w.size_le_front blank
    | false =>
      obtain ⟨v⟩ := exists_lastWord blank
      rw [v.wordBefore_eq]
      exact w.le_front (v.opensWord x)

/-- With a character in front of it that is no blank, an offset has a last word in front of it. -/
lemma exists_lastWord_front {x y : Text} {c : Char} (hn : text.isBoundary n = true)
    (split : text = x ++ c :: y) (solid : Text.isBlankChar c = false) (lt : x.byteSize < n) :
    ∃ z b : Text, text = x ++ c :: z ++ b ∧ n = Text.byteSize (x ++ c :: z) ∧
      Nonempty (LastWord (x ++ c :: z)) := by
  obtain ⟨a, b, rfl, rfl⟩ := Text.exists_append_of_isBoundary hn
  obtain ⟨z, rfl, rest⟩ := Text.exists_between split (Nat.le_of_lt lt)
  cases z with
  | nil =>
    rw [List.append_nil] at lt
    exact absurd lt (Nat.lt_irrefl _)
  | cons d z =>
    obtain ⟨rfl, _⟩ := List.cons_eq_cons.mp rest
    refine ⟨z, b, rfl, rfl, exists_lastWord ?_⟩
    simp [Text.isBlank, solid]

/-- No word that starts in front of a gap stands behind the one that is marked for it. -/
lemma le_wordBefore (hn : text.isBoundary n = true) (h : OpensWord text m) (lt : m < n) :
    m ≤ (wordBefore text n).1 := by
  obtain ⟨x, c, y, split, rfl, solid, opened⟩ := h
  obtain ⟨z, b, rfl, rfl, ⟨w⟩⟩ := exists_lastWord_front hn split solid lt
  rw [w.wordBefore_eq]
  exact w.le_front ⟨x, c, z, rfl, rfl, solid, opened⟩

end Editor

end TypeqlAssist

import TypeqlAssist.Completion.Pattern
import TypeqlAssist.Proofs.Completion.Replacement
import TypeqlAssist.Proofs.Document.Composition
import TypeqlAssist.Proofs.Token.Encoding

/-!
# Words and their continuation

The word at a cursor is found by going back over the bytes of a text, while the pattern that a
client applies to what has been typed speaks of characters. Both are about the same characters, all
of one byte. So a client that takes the text between some offset and the cursor for the word typed
so far finds it valid exactly where the offset is no earlier than the start of the word
(`matches_iff_wordStart_le`).
-/

namespace TypeqlAssist

/-! ## The bytes of words -/

namespace Text

/-- Up to an offset that is no boundary there is no whole number of characters. -/
lemma takeBytes?_eq_none {n : Nat} {text : Text} (h : text.isBoundary n = false) :
    takeBytes? n text = none := by
  unfold isBoundary at h
  induction n, text using takeBytes?.induct with
  | case1 cs => simp [dropBytes?] at h
  | case2 n => rfl
  | case3 n c cs le ih =>
    rw [dropBytes?, if_pos le] at h
    rw [takeBytes?, if_pos le, ih h]
    rfl
  | case4 n c cs lt => rw [takeBytes?, if_neg lt]

/-- An offset in a text that is no boundary lies within one of its characters. -/
lemma exists_around {n : Nat} {text : Text} (le : n ≤ text.byteSize)
    (h : text.isBoundary n = false) :
    ∃ (a : Text) (c : Char) (b : Text), text = a ++ c :: b ∧ a.byteSize < n ∧
      n < a.byteSize + c.utf8Size := by
  induction text generalizing n with
  | nil =>
    rw [byteSize_nil, Nat.le_zero] at le
    subst le
    cases h
  | cons c cs ih =>
    by_cases inside : n < c.utf8Size
    · refine ⟨[], c, cs, rfl, Nat.pos_of_ne_zero ?_, by simpa using inside⟩
      rintro rfl
      simp [isBoundary, dropBytes?] at h
    · obtain ⟨m, rfl⟩ := Nat.exists_eq_add_of_le (Nat.le_of_not_lt inside)
      have shifted := dropBytes?_add [c] cs m
      rw [byteSize_cons, byteSize_nil, Nat.add_zero, List.singleton_append] at shifted
      rw [isBoundary, shifted] at h
      rw [byteSize_cons, Nat.add_le_add_iff_left] at le
      obtain ⟨a, d, b, rfl, lt, lt'⟩ := ih le h
      refine ⟨c :: a, d, b, rfl, ?_, ?_⟩
      · rw [byteSize_cons]
        omega
      · rw [byteSize_cons]
        omega

end Text

namespace Scanner

open Completion (isWordChar onAscii_isWordChar)

/-- Every character is encoded as some bytes. -/
lemma utf8EncodeChar_ne_nil (c : Char) : String.utf8EncodeChar c ≠ [] := by
  rw [utf8EncodeChar_eq]
  exact nofun

/-- The bytes of a character belong to words as the character does. -/
lemma ascii_of_mem_utf8EncodeChar {c : Char} {b : UInt8} (h : b ∈ String.utf8EncodeChar c) :
    ascii isWordChar b = isWordChar c := by
  rw [utf8EncodeChar_eq] at h
  rcases List.mem_cons.mp h with rfl | tail
  · exact ascii_lead onAscii_isWordChar c
  · rw [ascii_of_le _ (le_of_mem_trail tail)]
    cases word : isWordChar c with
    | false => rfl
    | true =>
      rw [trail_of_ascii (onAscii_isWordChar c word)] at tail
      cases tail

/-- Bytes are counted from behind down to the last one that fails the test. -/
lemma run_reverse {p : UInt8 → Bool} {xs ys : List UInt8} (hy : ∀ b ∈ ys, p b = true)
    (hx : ∀ b ∈ xs.getLast?, p b = false) : run p (xs ++ ys).reverse = ys.length := by
  rw [run, Completion.takeWhile_reverse_append hy hx, List.length_reverse]

/-- The last byte of a text belongs to a word as the last character does. -/
lemma getLast?_bytes {a : Text} (h : ∀ c ∈ a.getLast?, isWordChar c = false) :
    ∀ b ∈ (Text.bytes a).getLast?, ascii isWordChar b = false := by
  rcases List.eq_nil_or_concat a with rfl | ⟨init, last, rfl⟩
  · exact nofun
  · rw [List.concat_eq_append] at h ⊢
    intro b hb
    have some := utf8EncodeChar_ne_nil last
    have char : Text.bytes [last] = String.utf8EncodeChar last := List.append_nil _
    rw [bytes_append, char, List.getLast?_append_of_ne_nil _ some] at hb
    rw [ascii_of_mem_utf8EncodeChar (List.mem_of_getLast? hb)]
    exact h last List.getLast?_concat

/-- At a boundary the word consists of the bytes of its characters. -/
lemma wordStart_bytes_append (x b : Text) :
    wordStart (Text.bytes (x ++ b)) x.byteSize = Completion.wordStart (x ++ b) x.byteSize := by
  obtain ⟨a, v, rfl, word, front⟩ := Completion.exists_word x
  have before : (Text.bytes (a ++ v ++ b)).take (Text.byteSize (a ++ v)) =
      Text.bytes a ++ Text.bytes v := by
    rw [bytes_append, ← length_bytes, List.take_left, bytes_append]
  have inWord : ∀ b ∈ Text.bytes v, ascii isWordChar b = true := by
    intro b hb
    obtain ⟨c, hc, hb⟩ := List.mem_flatMap.mp hb
    rw [ascii_of_mem_utf8EncodeChar hb, word c hc]
  simp only [wordStart, before]
  rw [run_reverse inWord (getLast?_bytes front), List.length_append, Nat.add_sub_cancel,
    length_bytes, Completion.wordStart_append b word front]

/-- No word ends within a character. -/
lemma wordStart_bytes_within {a : Text} {c : Char} {n : Nat} (b : Text) (pos : 0 < n)
    (lt : n < c.utf8Size) :
    wordStart (Text.bytes (a ++ c :: b)) (a.byteSize + n) = a.byteSize + n := by
  have other : isWordChar c = false :=
    Bool.eq_false_iff.mpr fun word => absurd (onAscii_isWordChar c word) (by omega)
  have length := String.length_utf8EncodeChar c
  have before : (Text.bytes (a ++ c :: b)).take (a.byteSize + n) =
      Text.bytes a ++ (String.utf8EncodeChar c).take n := by
    have first : Text.bytes (c :: b) = String.utf8EncodeChar c ++ Text.bytes b := rfl
    rw [bytes_append, ← length_bytes, List.take_length_add_append, first,
      List.take_append_of_le_length (by omega)]
  have part : (String.utf8EncodeChar c).take n ≠ [] := by
    rw [ne_eq, List.take_eq_nil_iff, not_or]
    exact ⟨Nat.ne_of_gt pos, utf8EncodeChar_ne_nil c⟩
  have last : ∀ b ∈ (Text.bytes a ++ (String.utf8EncodeChar c).take n).getLast?,
      ascii isWordChar b = false := by
    intro b hb
    rw [List.getLast?_append_of_ne_nil _ part] at hb
    rw [ascii_of_mem_utf8EncodeChar (List.mem_of_mem_take (List.mem_of_getLast? hb)), other]
  have none : run (ascii isWordChar)
      (Text.bytes a ++ (String.utf8EncodeChar c).take n ++ []).reverse = 0 := run_reverse nofun last
  rw [List.append_nil] at none
  simp only [wordStart, before]
  rw [none, Nat.sub_zero, List.length_append, length_bytes, List.length_take_of_le (by omega)]

/-- Going back over bytes leads to where the word starts, also from within a character. -/
lemma wordStart_bytes (text : Text) (pos : Nat) :
    wordStart text.bytes pos = Completion.wordStart text pos := by
  have cursor : wordStart text.bytes pos = wordStart text.bytes (min pos text.byteSize) := by
    rw [wordStart, wordStart, List.take_eq_take_min, length_bytes]
  have same : Completion.wordStart text pos =
      Completion.wordStart text (min pos text.byteSize) := by
    simp only [Completion.wordStart, Nat.min_assoc, Nat.min_self]
  rw [cursor, same]
  have le := Nat.min_le_right pos text.byteSize
  generalize min pos text.byteSize = n at le
  cases boundary : text.isBoundary n with
  | true =>
    obtain ⟨x, b, rfl, rfl⟩ := Text.exists_append_of_isBoundary boundary
    exact wordStart_bytes_append x b
  | false =>
    have none := Text.takeBytes?_eq_none boundary
    obtain ⟨a, c, b, rfl, lt, lt'⟩ := Text.exists_around le boundary
    obtain ⟨m, rfl⟩ := Nat.exists_eq_add_of_le (Nat.le_of_lt lt)
    rw [wordStart_bytes_within b (by omega) (by omega)]
    simp only [Completion.wordStart, Nat.min_eq_left le, none]

end Scanner

namespace Completion

/-! ## The pattern of words -/

/-- The characters that may follow by the pattern. -/
def continuationClass : Pattern.Class :=
  [('A', 'Z'), ('a', 'z'), ('0', '9'), ('_', '_'), ('-', '-'), ('$', '$')]

/-- The pattern is any number of characters of the class, from start to end. -/
lemma read?_continuationPattern :
    Pattern.read? none continuationPattern.toList =
      some [.textStart, .many continuationClass, .textEnd] := by
  decide

/-- A range of one character contains that one. -/
lemma contains_single (c d : Char) : (d ≤ c && c ≤ d) = (c == d) := by
  rw [Bool.eq_iff_iff, Bool.and_eq_true, decide_eq_true_iff, decide_eq_true_iff, beq_iff_eq]
  exact ⟨fun ⟨ge, le⟩ => Char.le_antisymm le ge, fun e => e ▸ ⟨Char.le_refl c, Char.le_refl c⟩⟩

/-- The pattern lists the characters of words. -/
lemma contains_continuationClass (c : Char) : continuationClass.contains c = isWordChar c := by
  have upper : c.isUpper = (decide ('A' ≤ c) && decide (c ≤ 'Z')) := Bool.decide_and _ _
  have lower : c.isLower = (decide ('a' ≤ c) && decide (c ≤ 'z')) := rfl
  have digit : c.isDigit = (decide ('0' ≤ c) && decide (c ≤ '9')) := rfl
  have letters : c.isAlphanum = (c.isUpper || c.isLower || c.isDigit) := rfl
  simp only [Pattern.Class.contains, continuationClass, List.any_cons, List.any_nil,
    Bool.or_false, contains_single, isWordChar, Lexer.isIdentifierChar, letters, upper, lower,
    digit, Bool.or_assoc]

/-- A text matches the pattern if all its characters are those of words. -/
lemma matches_continuationPattern (typed : Text) :
    Pattern.Matches continuationPattern typed ↔ isContinuation typed = true := by
  rw [isContinuation, List.all_eq_true]
  simp only [← contains_continuationClass]
  constructor
  · rintro ⟨pieces, before, part, behind, read, rfl, reads⟩
    cases Option.some.inj (read?_continuationPattern.symm.trans read)
    cases reads with
    | cons start reads =>
      cases reads with
      | cons word reads =>
        cases reads with
        | cons stop reads =>
          cases reads
          cases start
          cases stop
          cases word with
          | many word => simpa using word
  · intro word
    have stop : Pattern.Reads [.textEnd] typed [] [] := .cons .textEnd .nil
    have row := Pattern.Reads.cons .textStart (.cons (.many word) stop)
    refine ⟨_, [], typed, [], read?_continuationPattern, ?_, ?_⟩
    · rw [List.append_nil, List.nil_append]
    · rwa [List.nil_append, List.append_nil] at row

/-! ## The word at a cursor -/

/-- What ends where a word does continues a word if it starts no earlier than that. -/
lemma isContinuation_iff {a v p typed : Text} (h : a ++ v = p ++ typed)
    (word : ∀ c ∈ v, isWordChar c = true) (front : ∀ c ∈ a.getLast?, isWordChar c = false) :
    isContinuation typed = true ↔ a.byteSize ≤ p.byteSize := by
  rw [isContinuation, List.all_eq_true]
  rcases Nat.le_total a.byteSize p.byteSize with le | le
  · obtain ⟨x, rfl, rfl⟩ := Text.exists_between h.symm le
    exact ⟨fun _ => le, fun _ c hc => word c (List.mem_append_right _ hc)⟩
  · obtain ⟨x, rfl, rfl⟩ := Text.exists_between h le
    rw [Text.byteSize_append]
    cases x with
    | nil => simpa using word
    | cons d x =>
      have last := List.getLast?_eq_some_getLast (List.cons_ne_nil d x)
      have other := front _ ((List.getLast?_append_of_ne_nil p (List.cons_ne_nil d x)).trans last)
      constructor
      · intro all
        rw [all _ (List.mem_append_left _ (List.mem_of_getLast? last))] at other
        cases other
      · have pos := d.utf8Size_pos
        rw [Text.byteSize_cons]
        omega

/--
The word at a cursor is found on the bytes of the text. It starts at a boundary no later than the
cursor, and what stands between a boundary and the cursor matches the pattern of words exactly where
the boundary is no earlier than that.
-/
theorem matches_iff_wordStart_le (text : Text) (pos : Nat) (boundary : text.isBoundary pos = true) :
    Scanner.wordStart text.bytes pos = wordStart text pos ∧
      text.isBoundary (wordStart text pos) = true ∧ wordStart text pos ≤ pos ∧
      ∀ q ≤ pos, text.isBoundary q = true →
        ∃ typed, text.slice? q pos = some typed ∧
          (isContinuation typed = true ↔ Pattern.Matches continuationPattern typed) ∧
          (Pattern.Matches continuationPattern typed ↔ wordStart text pos ≤ q) := by
  refine ⟨Scanner.wordStart_bytes text pos, ?_⟩
  obtain ⟨x, b, rfl, rfl⟩ := Text.exists_append_of_isBoundary boundary
  obtain ⟨a, v, rfl, word, front⟩ := exists_word x
  rw [wordStart_append b word front]
  refine ⟨?_, ?_, fun q le hq => ?_⟩
  · rw [List.append_assoc]
    exact Text.isBoundary_append a (v ++ b)
  · rw [Text.byteSize_append]
    exact Nat.le_add_right _ _
  · obtain ⟨p, rest, whole, rfl⟩ := Text.exists_append_of_isBoundary hq
    obtain ⟨typed, split, rfl⟩ := Text.exists_between whole le
    refine ⟨typed, ?_, (matches_continuationPattern typed).symm, ?_⟩
    · rw [whole, split, Text.byteSize_append]
      exact Text.slice?_append p typed b
    · rw [matches_continuationPattern, isContinuation_iff split word front]

/-- A word stands directly behind a letter of two bytes, which belongs to none. -/
theorem matches_iff_wordStart_le_behind_letter :
    Text.isBoundary "isa né$x-1;".toList 11 = true ∧ wordStart "isa né$x-1;".toList 11 = 7 ∧
      Pattern.Matches continuationPattern "$x-1".toList ∧
      Pattern.Matches continuationPattern "x-1".toList ∧
      ¬ Pattern.Matches continuationPattern "é$x-1".toList := by
  have boundary : Text.isBoundary "isa né$x-1;".toList 11 = true := by decide
  have start : wordStart "isa né$x-1;".toList 11 = 7 := by decide
  obtain ⟨_, _, _, typing⟩ := matches_iff_wordStart_le _ 11 boundary
  rw [start] at typing
  have slices : Text.slice? "isa né$x-1;".toList 7 11 = some "$x-1".toList ∧
      Text.slice? "isa né$x-1;".toList 8 11 = some "x-1".toList ∧
      Text.slice? "isa né$x-1;".toList 5 11 = some "é$x-1".toList := by decide
  obtain ⟨_, whole, _, fits⟩ := typing 7 (by decide) (by decide)
  obtain ⟨_, part, _, inside⟩ := typing 8 (by decide) (by decide)
  obtain ⟨_, more, _, outside⟩ := typing 5 (by decide) (by decide)
  cases Option.some.inj (slices.1.symm.trans whole)
  cases Option.some.inj (slices.2.1.symm.trans part)
  cases Option.some.inj (slices.2.2.symm.trans more)
  exact ⟨boundary, start, fits.mpr (by decide), inside.mpr (by decide),
    fun continued => absurd (outside.mp continued) (by decide)⟩

end Completion

end TypeqlAssist

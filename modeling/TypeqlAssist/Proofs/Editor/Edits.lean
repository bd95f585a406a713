import TypeqlAssist.Proofs.Completion.Replacement
import TypeqlAssist.Proofs.Editor.Position

/-!
# The edits of items

A word has no line feed in it, so it starts on the line of its cursor. The edit of an item therefore
stays on one line, and its ends lead back to the start of the word and to the cursor; a request at
the position of the cursor gets the same items (`edits_exact`).
-/

namespace TypeqlAssist

namespace Editor

open Completion (isWordChar wordStart)

variable {text : Text}

/-! ## Words and lines -/

/-- The word that ends in the content of a line starts there. -/
lemma Line.exists_word (l : Line text) {y z : Text} (h : l.content = y ++ z) :
    ∃ x v, y = x ++ v ∧ wordStart text (l.start + y.byteSize) = l.start + x.byteSize := by
  obtain ⟨a, v, split, word, front⟩ := Completion.exists_word (l.before ++ y)
  have start := Completion.wordStart_append (z ++ (l.returns ++ l.rest)) word front
  have whole : text = a ++ v ++ (z ++ (l.returns ++ l.rest)) := by
    rw [← split]
    refine l.whole.trans ?_
    rw [h, List.append_assoc, List.append_assoc]
  rw [← whole, ← split, Text.byteSize_append] at start
  rcases Nat.le_total l.before.byteSize a.byteSize with le | le
  · obtain ⟨x, rfl, rfl⟩ := Text.exists_between split.symm le
    refine ⟨x, v, rfl, start.trans ?_⟩
    rw [Text.byteSize_append, Line.start]
  · obtain ⟨x, before, rfl⟩ := Text.exists_between split le
    -- the line would start within the word
    have none : x = [] := by
      rcases l.opened with empty | last
      · exact (List.append_eq_nil_iff.mp (before.symm.trans empty)).2
      · by_contra some
        rw [before, List.getLast?_append_of_ne_nil _ some] at last
        have feed := word _ (List.mem_append_left _ (List.mem_of_getLast? last))
        exact absurd feed (by decide)
    subst none
    refine ⟨[], y, rfl, start.trans ?_⟩
    rw [Line.start, before, List.append_nil]
    rfl

/-- The position of an offset in the content of a line leads back to the offset. -/
lemma Line.offsetIn?_content (l : Line text) {x y : Text} (h : l.content = x ++ y) :
    (positionOf text (l.start + x.byteSize)).line = l.number ∧
    (positionOf text (l.start + x.byteSize)).offsetIn? text = some (l.start + x.byteSize) := by
  have position : positionOf text (l.start + x.byteSize) = ⟨l.number, units x⟩ :=
    l.positionOf_append (z := y ++ l.returns) (by rw [h, List.append_assoc])
  rw [position]
  refine ⟨rfl, ?_⟩
  rw [l.offsetIn? rfl, h, columnOffset_units]

/-! ## Items -/

/-- At a boundary there are items, and each of them replaces the word up to the cursor. -/
lemma exists_items (config : Config) {offset : Nat} (h : text.isBoundary offset = true) :
    ∃ items, itemsAt config text offset = .ok items ∧
      ∀ item ∈ items, item.range = rangeOf text (wordStart text offset) offset := by
  obtain ⟨a, b, rfl, rfl⟩ := Text.exists_append_of_isBoundary h
  have cursor : min a.byteSize (Text.byteSize (a ++ b)) = a.byteSize := by
    rw [Text.byteSize_append]
    omega
  rw [itemsAt, completeAt, if_pos h]
  cases found : Completion.complete (parseTree (a ++ b)) (a ++ b) a.byteSize with
  | none => exact ⟨[], rfl, fun _ mem => absurd mem List.not_mem_nil⟩
  | some result =>
    refine ⟨_, rfl, ?_⟩
    intro item mem
    obtain ⟨rank, _, rfl⟩ := List.mem_mapIdx.mp mem
    have start := Completion.replaceFrom_eq found
    rw [cursor] at start
    rw [← start]
    rfl

/--
At a boundary within the content of its line there are items, the same ones as at the position of
the boundary. The edit of each of them stays on one line, with numbers no larger than the text; it
starts at the position of the start of the word and ends at that of the boundary.
-/
theorem edits_exact (config : Config) (text : Text) (offset : Nat) (l : Line text)
    (boundary : text.isBoundary offset = true) (starts : l.start ≤ offset)
    (stops : offset ≤ l.stop) :
    ∃ items, itemsAt config text offset = .ok items ∧
      itemsAtPosition config text (positionOf text offset) = .ok items ∧
      ∀ item ∈ items,
        item.range.start.line = item.range.stop.line ∧
        item.range.start.offsetIn? text = some (wordStart text offset) ∧
        item.range.stop.offsetIn? text = some offset ∧
        item.range.stop.line ≤ text.byteSize ∧
        item.range.start.character ≤ text.byteSize ∧
        item.range.stop.character ≤ text.byteSize := by
  obtain ⟨items, found, ranges⟩ := exists_items config boundary
  obtain ⟨y, z, content, rfl⟩ : ∃ y z, l.content = y ++ z ∧ l.start + y.byteSize = offset := by
    obtain ⟨a, b, whole, rfl⟩ := Text.exists_append_of_isBoundary boundary
    obtain ⟨y, rfl, behind⟩ := Text.exists_between (whole.symm.trans l.whole) starts
    simp only [Line.stop, Line.start, Text.byteSize_append] at stops
    obtain ⟨z, content, _⟩ := Text.exists_between behind (by omega)
    exact ⟨y, z, content, (Text.byteSize_append _ _).symm⟩
  obtain ⟨x, v, rfl, start⟩ := l.exists_word content
  have back := l.offsetIn?_content content
  have front := l.offsetIn?_content (content.trans (List.append_assoc x v z))
  refine ⟨items, found, ?_, ?_⟩
  · rw [itemsAtPosition, offsetOf, back.2]
    exact found
  · intro item mem
    rw [ranges item mem, start]
    refine ⟨front.1.trans back.1.symm, front.2, back.2, ?_, ?_, ?_⟩
    · exact (positionOf_le text _).1
    · exact (positionOf_le text _).2
    · exact (positionOf_le text _).2

/-- A line behind another one, with a character of two units on it and a return at its end. -/
def wideLine : Line "a;\n😀 match $xy\r\n".toList where
  before := "a;\n".toList
  content := "😀 match $xy".toList
  returns := ['\r']
  rest := ['\n']
  whole := rfl
  opened := .inr rfl
  inner := by decide
  trimmed := by decide
  blank := by simp
  closed := .inr rfl

/-- Inside a variable that stands behind a character of two units. -/
theorem edits_exact_wide :
    Text.isBoundary "a;\n😀 match $xy\r\n".toList 16 = true ∧ wideLine.start ≤ 16 ∧
    16 ≤ wideLine.stop ∧
    ∃ items, itemsAt Config.default "a;\n😀 match $xy\r\n".toList 16 = .ok items ∧
      itemsAtPosition Config.default "a;\n😀 match $xy\r\n".toList
        (positionOf "a;\n😀 match $xy\r\n".toList 16) = .ok items ∧
      items.map (·.range) = [⟨⟨1, 9⟩, ⟨1, 11⟩⟩] ∧
      ∀ item ∈ items, item.range.start.offsetIn? "a;\n😀 match $xy\r\n".toList = some 14 ∧
        item.range.stop.offsetIn? "a;\n😀 match $xy\r\n".toList = some 16 := by
  have boundary : Text.isBoundary "a;\n😀 match $xy\r\n".toList 16 = true := by decide
  have starts : wideLine.start ≤ 16 := by decide
  have stops : 16 ≤ wideLine.stop := by decide
  have start : wordStart "a;\n😀 match $xy\r\n".toList 16 = 14 := by decide
  obtain ⟨items, found, same, edits⟩ :=
    edits_exact Config.default _ 16 wideLine boundary starts stops
  have ranges : ((itemsAt Config.default "a;\n😀 match $xy\r\n".toList 16).toOption.map
      (·.map (·.range))) = some [⟨⟨1, 9⟩, ⟨1, 11⟩⟩] := by decide +kernel
  rw [found] at ranges
  refine ⟨boundary, starts, stops, items, found, same, Option.some.inj ranges, ?_⟩
  intro item mem
  obtain ⟨_, first, last, _⟩ := edits item mem
  exact ⟨start ▸ first, last⟩

end Editor

end TypeqlAssist

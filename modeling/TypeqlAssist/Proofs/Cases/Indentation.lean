import Mathlib.Data.List.TakeWhile
import TypeqlAssist.Proofs.Cases.Lines

/-!
# Indentation

Blanks in front of every line are part of the indentation that the lines share, and go with it. A
line that cannot be cut behind that many bytes loses all its leading blanks instead, and those in
front of it too. So lines stand for the same text when they are moved to the right together
(`dedent_indent`).
-/

namespace TypeqlAssist

namespace Cases

open Text

variable {w : Text} {lines : List Text}

/-- A text in two parts is blank if both are. -/
lemma isBlank_append (a b : Text) : isBlank (a ++ b) = (isBlank a && isBlank b) :=
  List.all_append

/-! ## One line -/

/-- Blanks before a line add their width to its indentation. -/
lemma indentOf_append (h : isBlank w = true) (line : Text) :
    indentOf (w ++ line) = w.byteSize + indentOf line := by
  rw [indentOf, List.takeWhile_append_of_pos (List.all_eq_true.mp h), byteSize_append, indentOf]

/-- Blanks in front of a line are cut off with what is cut off behind them, or with all blanks. -/
lemma cutIndent_append (h : isBlank w = true) (n : Nat) (line : Text) :
    cutIndent (w.byteSize + n) (w ++ line) = cutIndent n line := by
  have blanks : trimStart (w ++ line) = trimStart line :=
    List.dropWhile_append_of_pos (List.all_eq_true.mp h)
  rw [cutIndent, cutIndent, dropBytes?_add, blanks]

/-- Cutting no width leaves a line as it is. -/
lemma cutIndent_zero (line : Text) : cutIndent 0 line = line := by
  rw [cutIndent, dropBytes?, Option.getD_some]

/-! ## All lines -/

/-- The common indentation is the least one of a line that is not blank. -/
lemma commonIndent_eq_iff (some : ∃ line ∈ lines, isBlank line = false) {n : Nat} :
    commonIndent lines = n ↔
      (∃ line ∈ lines, isBlank line = false ∧ indentOf line = n) ∧
        ∀ line ∈ lines, isBlank line = false → n ≤ indentOf line := by
  obtain ⟨line, mem, solid⟩ := some
  have filled : (lines.filter fun l => !isBlank l).map indentOf ≠ [] :=
    List.ne_nil_of_mem (List.mem_map_of_mem (List.mem_filter.mpr ⟨mem, by rw [solid]; rfl⟩))
  obtain ⟨m, least⟩ := Option.ne_none_iff_exists'.mp (mt List.min?_eq_none_iff.mp filled)
  have common : commonIndent lines = n ↔
      ((lines.filter fun l => !isBlank l).map indentOf).min? = some n := by
    rw [commonIndent, least, Option.getD_some, Option.some.injEq]
  rw [common, List.min?_eq_some_iff]
  simp only [List.mem_map, List.mem_filter, Bool.not_eq_true', and_assoc, forall_exists_index,
    and_imp]
  refine and_congr_right fun _ => ⟨fun below line mem solid => below _ line mem solid rfl, ?_⟩
  rintro below _ line mem solid rfl
  exact below line mem solid

/-- Blanks in front of all lines add to their common indentation. -/
lemma commonIndent_map_append (h : isBlank w = true)
    (some : ∃ line ∈ lines, isBlank line = false) :
    commonIndent (lines.map (w ++ ·)) = w.byteSize + commonIndent lines := by
  have solid (line : Text) : isBlank (w ++ line) = isBlank line := by
    rw [isBlank_append, h, Bool.true_and]
  obtain ⟨⟨least, mem, filled, attained⟩, below⟩ := (commonIndent_eq_iff some).mp rfl
  have kept : w ++ least ∈ lines.map (w ++ ·) := List.mem_map_of_mem mem
  have filled := (solid least).trans filled
  refine (commonIndent_eq_iff ⟨_, kept, filled⟩).mpr ⟨⟨_, kept, filled, ?_⟩, ?_⟩
  · rw [indentOf_append h, attained]
  · intro line hl filled
    obtain ⟨line, mem, rfl⟩ := List.mem_map.mp hl
    rw [indentOf_append h]
    exact Nat.add_le_add_left (below line mem ((solid line).symm.trans filled)) _

/-- Of lines without a common indentation only blank ones at both ends are dropped. -/
lemma dedent_of_commonIndent (h : commonIndent lines = 0) :
    dedent lines = joinLines (trimBlankLines lines) := by
  have uncut : lines.map (cutIndent 0) = lines := by
    rw [funext cutIndent_zero]
    exact List.map_id lines
  rw [dedent, h, uncut]

/-- Nothing is left of blank lines. -/
lemma dedent_of_isBlank (h : ∀ line ∈ lines, isBlank line = true) : dedent lines = [] := by
  have none : (lines.filter fun l => !isBlank l) = [] :=
    List.filter_eq_nil_iff.mpr fun line mem => by simp [h line mem]
  have uncut : commonIndent lines = 0 := by
    rw [commonIndent, none]
    rfl
  rw [dedent_of_commonIndent uncut, trimBlankLines, List.dropWhile_eq_nil_iff.mpr h]
  rfl

/-- The same blanks in front of all lines do not change the text of the lines. -/
lemma dedent_map_append (h : isBlank w = true) (lines : List Text) :
    dedent (lines.map (w ++ ·)) = dedent lines := by
  by_cases some : ∃ line ∈ lines, isBlank line = false
  · have cut : (lines.map (w ++ ·)).map (cutIndent (w.byteSize + commonIndent lines)) =
        lines.map (cutIndent (commonIndent lines)) := by
      rw [List.map_map]
      exact List.map_congr_left fun line _ => cutIndent_append h _ line
    rw [dedent, commonIndent_map_append h some, cut, dedent]
  · -- without a line that is not blank nothing is cut off, but nothing is kept either
    have blank (line) (mem : line ∈ lines) : isBlank line = true := by
      by_contra filled
      exact some ⟨line, mem, Bool.eq_false_iff.mpr filled⟩
    rw [dedent_of_isBlank blank, dedent_of_isBlank]
    intro line hl
    obtain ⟨line, mem, rfl⟩ := List.mem_map.mp hl
    rw [isBlank_append, h, blank line mem]
    rfl

/--
Lines that are all indented by some spaces more stand for the same text. If one of them was not
indented at all, this is the text of the lines as they were, but for the blank ones at both ends.
-/
theorem dedent_indent (k : Nat) (lines : List Text) :
    dedent (lines.map fun line => List.replicate k ' ' ++ line) = dedent lines ∧
      ∀ line ∈ lines, isBlank line = false → indentOf line = 0 →
        dedent (lines.map fun line => List.replicate k ' ' ++ line) =
          joinLines (trimBlankLines lines) := by
  have spaces : isBlank (List.replicate k ' ') = true := by
    rw [isBlank, List.all_replicate]
    cases k <;> rfl
  have same := dedent_map_append spaces lines
  refine ⟨same, fun line mem solid flush => ?_⟩
  have none : commonIndent lines = 0 :=
    (commonIndent_eq_iff ⟨line, mem, solid⟩).mpr ⟨⟨line, mem, solid, flush⟩, by simp⟩
  rw [same, dedent_of_commonIndent none]

/-- A block with blank lines in it and around it, and a blank of two bytes in front of one line. -/
def unevenBlock : List Text :=
  ["".toList, "match".toList, "\u00a0 $x isa".toList, " ".toList, "é;".toList, " ".toList]

/-- A block in which one line keeps its own indentation. -/
theorem dedent_indent_block :
    "match".toList ∈ unevenBlock ∧ isBlank "match".toList = false ∧ indentOf "match".toList = 0 ∧
      dedent (unevenBlock.map fun line => List.replicate 3 ' ' ++ line) =
        "match\n\u00a0 $x isa\n \né;".toList := by
  have mem : "match".toList ∈ unevenBlock := by decide
  have solid : isBlank "match".toList = false := by decide
  have flush : indentOf "match".toList = 0 := by decide
  refine ⟨mem, solid, flush, ?_⟩
  rw [(dedent_indent 3 unevenBlock).2 _ mem solid flush]
  decide

end Cases

end TypeqlAssist

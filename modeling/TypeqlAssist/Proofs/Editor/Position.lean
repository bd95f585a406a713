import Mathlib.Data.List.DropRight
import Mathlib.Data.List.TakeWhile
import Mathlib.Data.Set.Basic
import Mathlib.Order.Bounds.Defs
import TypeqlAssist.Editor.Engine
import TypeqlAssist.Proofs.Document.Composition

/-!
# Positions and offsets

A `Line` is a part of a text between line feeds, with the carriage returns at its end told apart
from its content. The offset of a position is the first one in the content of its line that is at
the column or behind it, and the end of the content where there is none; the position of an offset
leads back to the offset, or to the end of the content in front of it (`positions_faithful`).
-/

namespace TypeqlAssist

/-! ## Parts of a text -/

namespace Text

/-- A text has no more characters than bytes. -/
lemma length_le_byteSize (text : Text) : text.length ≤ text.byteSize := by
  induction text with
  | nil => exact Nat.le_refl _
  | cons c cs ih =>
    have pos := c.utf8Size_pos
    rw [List.length_cons, byteSize_cons]
    omega

/-- As many bytes as the first part has are the first part. -/
lemma takeUpTo_append (a b : Text) : takeUpTo a.byteSize (a ++ b) = a := by
  induction a with
  | nil =>
    cases b with
    | nil => rfl
    | cons c cs =>
      have pos := c.utf8Size_pos
      rw [List.nil_append, takeUpTo, byteSize_nil, if_neg (by omega)]
  | cons c cs ih =>
    rw [List.cons_append, takeUpTo, byteSize_cons, if_pos (Nat.le_add_right _ _),
      Nat.add_sub_cancel_left, ih]

/-- A part from the front has no more bytes than the text. -/
lemma takeUpTo_byteSize_le (n : Nat) (text : Text) :
    (takeUpTo n text).byteSize ≤ text.byteSize := by
  fun_induction takeUpTo n text with
  | case1 => exact Nat.le_refl _
  | case2 n c cs fits ih => exact Nat.add_le_add_left ih _
  | case3 => exact Nat.zero_le _

section

variable {a s : Text} {p : Char → Bool} (pos : ∀ c ∈ s, p c = true)
variable (kept : ∀ c ∈ a.getLast?, p c = false)
include pos kept

/-- Characters that satisfy a test are cut off down to the last one that does not. -/
lemma rdropWhile_append : (a ++ s).rdropWhile p = a := by
  have front : a.rdropWhile p = a := by
    rw [List.rdropWhile_eq_self_iff]
    intro some last
    rw [kept _ (List.getLast?_eq_some_getLast some)] at last
    cases last
  have back : ∀ c ∈ s.reverse, p c = true := fun c hc => pos c (List.mem_reverse.mp hc)
  rw [List.rdropWhile, List.reverse_append, List.dropWhile_append_of_pos back]
  exact front

/-- What passes at the end, behind a character that does not, is taken. -/
lemma rtakeWhile_append : (a ++ s).rtakeWhile p = s := by
  have both : (a ++ s).rdropWhile p ++ (a ++ s).rtakeWhile p = a ++ s :=
    List.rdropWhile_append_rtakeWhile
  rw [rdropWhile_append pos kept] at both
  exact List.append_cancel_left both

end

/-- Where what passes is dropped at the end, what is left ends in none of it. -/
lemma getLast?_rdropWhile (p : Char → Bool) (a : Text) :
    ∀ c ∈ (a.rdropWhile p).getLast?, p c = false := by
  intro c last
  obtain ⟨some, rfl⟩ := List.mem_getLast?_eq_getLast last
  exact Bool.eq_false_iff.mpr (List.rdropWhile_last_not _ _ some)

end Text

namespace Editor

/-! ## Columns -/

/-- Every character has units. -/
lemma charUnits_pos (c : Char) : 0 < charUnits c := by
  unfold charUnits
  split <;> decide

/-- No character has more units than bytes. -/
lemma charUnits_le (c : Char) : charUnits c ≤ c.utf8Size := by
  unfold charUnits
  split
  · exact c.utf8Size_pos
  next big =>
    have long : c.utf8Size = 4 := by
      change ¬ c.val.toNat < 65536 at big
      have most (n : UInt32) (h : n.toNat < 65536) : ¬ c.val ≤ n := by
        rw [UInt32.le_iff_toNat_le]
        omega
      unfold Char.utf8Size
      rw [if_neg (most _ (by decide)), if_neg (most _ (by decide)), if_neg (most _ (by decide))]
    rw [long]
    decide

/-- The units of two texts are those of both. -/
@[simp]
lemma units_append (a b : Text) : units (a ++ b) = units a + units b := by
  induction a with
  | nil => simp [units]
  | cons c cs ih => rw [List.cons_append, units, units, ih, Nat.add_assoc]

/-- A text has no more units than bytes. -/
lemma units_le_byteSize (a : Text) : units a ≤ a.byteSize := by
  induction a with
  | nil => exact Nat.le_refl _
  | cons c cs ih => exact Nat.add_le_add (charUnits_le c) ih

/-- A column behind the first character is counted on from there. -/
lemma columnOffset_cons {column : Nat} (h : 0 < column) (c : Char) (cs : Text) :
    columnOffset column (c :: cs) = c.utf8Size + columnOffset (column - charUnits c) cs := by
  cases column with
  | zero => cases h
  | succ n => rfl

/-- The column behind a first part of a line is at the end of that part. -/
lemma columnOffset_units (a b : Text) : columnOffset (units a) (a ++ b) = a.byteSize := by
  induction a with
  | nil => cases b <;> rfl
  | cons c cs ih =>
    have pos := charUnits_pos c
    rw [List.cons_append, units, columnOffset_cons (by omega), Nat.add_sub_cancel_left, ih]
    rfl

/-- A column that is not in a line counts as its end. -/
lemma columnOffset_of_le {column : Nat} {a : Text} (h : units a ≤ column) :
    columnOffset column a = a.byteSize := by
  induction a generalizing column with
  | nil => cases column <;> rfl
  | cons c cs ih =>
    have pos := charUnits_pos c
    rw [units] at h
    rw [columnOffset_cons (by omega), ih (by omega)]
    rfl

/-- A column leads to the shortest first part of a line that reaches up to it. -/
lemma exists_columnOffset {column : Nat} {a : Text} (h : column ≤ units a) :
    ∃ x y, a = x ++ y ∧ columnOffset column a = x.byteSize ∧ column ≤ units x ∧
      ∀ x' y', a = x' ++ y' → column ≤ units x' → x.byteSize ≤ x'.byteSize := by
  induction a generalizing column with
  | nil =>
    cases Nat.le_zero.mp h
    exact ⟨[], [], rfl, rfl, h, fun _ _ _ _ => Nat.zero_le _⟩
  | cons c cs ih =>
    rcases Nat.eq_zero_or_pos column with rfl | pos
    · exact ⟨[], c :: cs, rfl, rfl, Nat.zero_le _, fun _ _ _ _ => Nat.zero_le _⟩
    · rw [units] at h
      have rest : column - charUnits c ≤ units cs := by omega
      obtain ⟨x, y, rfl, offset, reached, least⟩ := ih rest
      refine ⟨c :: x, y, rfl, ?_, ?_, ?_⟩
      · rw [columnOffset_cons pos, offset]
        rfl
      · rw [units]
        omega
      · intro x' y' split reached'
        cases x' with
        | nil => exact absurd reached' (Nat.not_le.mpr pos)
        | cons d ds =>
          rw [List.cons_append] at split
          obtain ⟨rfl, tail⟩ := List.cons_eq_cons.mp split
          rw [units] at reached'
          exact Nat.add_le_add_left (least ds y' tail (by omega)) _

/-! ## Lines -/

/--
A line of a text: what stands before it, its content without the carriage returns that end it, and
what follows, which is nothing or starts with a line feed.
-/
structure Line (text : Text) where
  before : Text
  content : Text
  returns : Text
  rest : Text
  whole : text = before ++ (content ++ (returns ++ rest))
  opened : before = [] ∨ before.getLast? = some '\n'
  inner : '\n' ∉ content
  trimmed : content.getLast? ≠ some '\r'
  blank : ∀ c ∈ returns, c = '\r'
  closed : rest = [] ∨ rest.head? = some '\n'

namespace Line

variable {text : Text}

/-- The number of a line, counted from zero. -/
def number (l : Line text) : Nat :=
  l.before.count '\n'

/-- The offset at which a line starts. -/
def start (l : Line text) : Nat :=
  l.before.byteSize

/-- The offset at which the content of a line ends. -/
def stop (l : Line text) : Nat :=
  l.start + l.content.byteSize

/-- The offset stands on the line, if only among the carriage returns behind its content. -/
def Holds (l : Line text) (offset : Nat) : Prop :=
  l.start ≤ offset ∧ offset ≤ l.stop + l.returns.byteSize

/-- The offsets between the characters of the content that are at a column or behind it. -/
def columns (l : Line text) (column : Nat) : Set Nat :=
  {offset | ∃ x y, l.content = x ++ y ∧ column ≤ units x ∧ offset = l.start + x.byteSize}

end Line

/-- The content of a first line is what stands before the returns at its end. -/
lemma lineContent_append {content returns rest : Text} (inner : '\n' ∉ content)
    (trimmed : content.getLast? ≠ some '\r') (blank : ∀ c ∈ returns, c = '\r')
    (closed : rest = [] ∨ rest.head? = some '\n') :
    lineContent (content ++ (returns ++ rest)) = content := by
  have line : (content ++ (returns ++ rest)).takeWhile (· != '\n') = content ++ returns := by
    have all : ∀ c ∈ content ++ returns, (c != '\n') = true := by
      intro c hc
      rw [bne_iff_ne]
      rintro rfl
      rcases List.mem_append.mp hc with hc | hc
      · exact inner hc
      · cases blank _ hc
    have none : rest.takeWhile (· != '\n') = [] := by
      rcases closed with rfl | closed
      · rfl
      · obtain ⟨tail, rfl⟩ := List.head?_eq_some_iff.mp closed
        rfl
    rw [← List.append_assoc, List.takeWhile_append_of_pos all, none, List.append_nil]
  rw [lineContent, line]
  refine Text.rdropWhile_append (fun c hc => beq_iff_eq.mpr (blank c hc)) fun c last => ?_
  rw [beq_eq_false_iff_ne]
  rintro rfl
  exact trimmed last

/-- Every text starts with a line. -/
lemma exists_lineContent (text : Text) :
    ∃ content returns rest : Text, text = content ++ (returns ++ rest) ∧ '\n' ∉ content ∧
      content.getLast? ≠ some '\r' ∧ (∀ c ∈ returns, c = '\r') ∧
      (rest = [] ∨ rest.head? = some '\n') := by
  obtain ⟨front, rest, rfl, inner, closed⟩ : ∃ front rest : Text, text = front ++ rest ∧
      '\n' ∉ front ∧ (rest = [] ∨ rest.head? = some '\n') := by
    by_cases feed : '\n' ∈ text
    · obtain ⟨front, rest, rfl, inner⟩ := List.eq_append_cons_of_mem feed
      exact ⟨front, _, rfl, inner, .inr rfl⟩
    · exact ⟨text, [], (List.append_nil _).symm, feed, .inl rfl⟩
  have split : front.rdropWhile (· == '\r') ++ front.rtakeWhile (· == '\r') = front :=
    List.rdropWhile_append_rtakeWhile
  refine ⟨front.rdropWhile (· == '\r'), front.rtakeWhile (· == '\r'), rest, ?_, ?_, ?_, ?_, closed⟩
  · rw [← List.append_assoc, split]
  · exact fun mem => inner ((List.rdropWhile_prefix _ _).subset mem)
  · intro last
    have kept : ('\r' == '\r') = false := Text.getLast?_rdropWhile (· == '\r') front '\r' last
    cases kept
  · intro c hc
    have returned : (c == '\r') = true := List.mem_rtakeWhile_imp (p := fun c => c == '\r') hc
    exact eq_of_beq returned

/-! ## The offset of a position -/

/-- What stands after the first line is found behind its line feed. -/
lemma afterLine?_append {a : Text} (h : '\n' ∉ a) (b : Text) :
    afterLine? (a ++ '\n' :: b) = some (Text.byteSize (a ++ ['\n']), b) := by
  induction a with
  | nil => rfl
  | cons c cs ih =>
    have ne : c ≠ '\n' := fun e => h (e ▸ .head _)
    rw [List.cons_append, afterLine?, if_neg (by simpa using ne), ih fun mem => h (.tail _ mem)]
    rfl

/-- Nothing stands after the first line of a text without line feeds. -/
lemma afterLine?_eq_none {a : Text} (h : '\n' ∉ a) : afterLine? a = none := by
  induction a with
  | nil => rfl
  | cons c cs ih =>
    have ne : c ≠ '\n' := fun e => h (e ▸ .head _)
    rw [afterLine?, if_neg (by simpa using ne), ih fun mem => h (.tail _ mem)]
    rfl

/-- A position has no offset if its line is behind the last one. -/
lemma offsetOn?_eq_none_iff {line column : Nat} {text : Text} :
    offsetOn? line column text = none ↔ text.count '\n' < line := by
  induction line generalizing text with
  | zero => simp [offsetOn?]
  | succ line ih =>
    by_cases feed : '\n' ∈ text
    · obtain ⟨a, b, rfl, first⟩ := List.eq_append_cons_of_mem feed
      simp only [offsetOn?, afterLine?_append first, Option.map_eq_none_iff, ih]
      rw [List.count_append, List.count_eq_zero.mpr first, List.count_cons_self]
      omega
    · simp [offsetOn?, afterLine?_eq_none feed, List.count_eq_zero.mpr feed]

/-- The lines before a position only move its offset. -/
lemma offsetOn?_append {a b : Text} (h : a = [] ∨ a.getLast? = some '\n') (column : Nat) :
    offsetOn? (a.count '\n') column (a ++ b) =
      some (a.byteSize + columnOffset column (lineContent b)) := by
  induction n : a.count '\n' generalizing a with
  | zero =>
    have first : '\n' ∉ a := List.count_eq_zero.mp n
    rcases h with rfl | last
    · simp [offsetOn?]
    · exact absurd (List.mem_of_getLast? last) first
  | succ n ih =>
    have feed : '\n' ∈ a := List.count_pos_iff.mp (by omega)
    obtain ⟨c, d, rfl, first⟩ := List.eq_append_cons_of_mem feed
    rw [List.count_append, List.count_eq_zero.mpr first, List.count_cons_self] at n
    have opened : d = [] ∨ d.getLast? = some '\n' := by
      cases d with
      | nil => exact .inl rfl
      | cons => simpa using h
    rw [List.append_assoc, List.cons_append, offsetOn?, afterLine?_append first]
    simp only [ih opened (by omega), Option.map_some, Text.byteSize_append, Text.byteSize_cons,
      Text.byteSize_nil]
    congr 1
    omega

namespace Line

variable {text : Text}

/-- The offset of a column is counted from the start of its line. -/
lemma offsetIn? (l : Line text) {p : Position} (h : l.number = p.line) :
    p.offsetIn? text = some (l.start + columnOffset p.character l.content) := by
  have content := lineContent_append l.inner l.trimmed l.blank l.closed
  have offset := offsetOn?_append (b := l.content ++ (l.returns ++ l.rest)) l.opened p.character
  rw [content, ← l.whole] at offset
  rw [Position.offsetIn?, ← h]
  exact offset

/-- The offset of a position is the first one in its line at the column, or the end of the line. -/
lemma offsetIn?_isLeast (l : Line text) {p : Position} (h : l.number = p.line) :
    ∃ offset, p.offsetIn? text = some offset ∧
      (IsLeast (l.columns p.character) offset ∨
        l.columns p.character = ∅ ∧ offset = l.stop) := by
  refine ⟨_, l.offsetIn? h, ?_⟩
  rcases Nat.lt_or_ge (units l.content) p.character with behind | within
  · refine .inr ⟨Set.eq_empty_iff_forall_notMem.mpr ?_, ?_⟩
    · rintro _ ⟨x, y, split, reached, -⟩
      rw [split, units_append] at behind
      omega
    · rw [columnOffset_of_le (Nat.le_of_lt behind), stop]
  · obtain ⟨x, y, split, offset, reached, least⟩ := exists_columnOffset within
    refine .inl ⟨⟨x, y, split, reached, by rw [offset]⟩, ?_⟩
    rintro _ ⟨x', y', split', reached', rfl⟩
    rw [offset]
    exact Nat.add_le_add_left (least x' y' split' reached') _

/-- An offset between two characters of the content is a boundary of the text. -/
lemma isBoundary (l : Line text) {x y : Text} (h : l.content = x ++ y) :
    text.isBoundary (l.start + x.byteSize) = true := by
  have split : text = (l.before ++ x) ++ (y ++ (l.returns ++ l.rest)) := by
    refine l.whole.trans ?_
    rw [h, List.append_assoc, List.append_assoc]
  have boundary := Text.isBoundary_append (l.before ++ x) (y ++ (l.returns ++ l.rest))
  rwa [← split, Text.byteSize_append] at boundary

end Line

/-! ## Lines of a text -/

/-- What stands behind a line feed starts with a line, and so does the whole text. -/
lemma exists_line {text before behind : Text} (whole : text = before ++ behind)
    (opened : before = [] ∨ before.getLast? = some '\n') :
    ∃ l : Line text, l.before = before ∧ behind = l.content ++ (l.returns ++ l.rest) := by
  obtain ⟨content, returns, rest, split, inner, trimmed, blank, closed⟩ := exists_lineContent behind
  exact ⟨⟨before, content, returns, rest, split ▸ whole, opened, inner, trimmed, blank, closed⟩,
    rfl, split⟩

/-- There is a line behind each of the line feeds. -/
lemma exists_line_number {text : Text} {n : Nat} (h : n ≤ text.count '\n') :
    ∃ l : Line text, l.number = n := by
  obtain ⟨before, behind, whole, opened, number⟩ : ∃ before behind : Text, text = before ++ behind ∧
      (before = [] ∨ before.getLast? = some '\n') ∧ before.count '\n' = n := by
    induction n generalizing text with
    | zero => exact ⟨[], text, rfl, .inl rfl, rfl⟩
    | succ n ih =>
      have feed : '\n' ∈ text := List.count_pos_iff.mp (by omega)
      obtain ⟨a, b, rfl, first⟩ := List.eq_append_cons_of_mem feed
      rw [List.count_append, List.count_eq_zero.mpr first, List.count_cons_self] at h
      have later : n ≤ b.count '\n' := by omega
      obtain ⟨before, behind, rfl, opened, number⟩ := ih later
      refine ⟨a ++ '\n' :: before, behind, by simp, .inr ?_, ?_⟩
      · rcases opened with rfl | last
        · simp
        · rw [List.getLast?_append, List.getLast?_cons, last]
          rfl
      · rw [List.count_append, List.count_eq_zero.mpr first, List.count_cons_self]
        omega
  obtain ⟨l, rfl, _⟩ := exists_line whole opened
  exact ⟨l, number⟩

/-- A text ends with a part that has no line feed, at its start or behind one. -/
lemma exists_last_line (text : Text) : ∃ before y : Text, text = before ++ y ∧
    (before = [] ∨ before.getLast? = some '\n') ∧ '\n' ∉ y := by
  by_cases feed : '\n' ∈ text
  · obtain ⟨a, b, e, first⟩ := List.eq_append_cons_of_mem (List.mem_reverse.mpr feed)
    refine ⟨b.reverse ++ ['\n'], a.reverse, ?_, .inr (by simp), by simpa using first⟩
    rw [← List.reverse_reverse text, e]
    simp
  · exact ⟨[], text, rfl, .inl rfl, feed⟩

/-- Every boundary of a text stands on a line. -/
lemma exists_line_holds {text : Text} {offset : Nat} (h : text.isBoundary offset = true) :
    ∃ l : Line text, l.Holds offset := by
  obtain ⟨a, b, whole, rfl⟩ := Text.exists_append_of_isBoundary h
  obtain ⟨before, y, rfl, opened, inner⟩ := exists_last_line a
  rw [List.append_assoc] at whole
  obtain ⟨l, rfl, split⟩ := exists_line whole opened
  refine ⟨l, ?_, ?_⟩
  · rw [Text.byteSize_append]
    exact Nat.le_add_right _ _
  · -- the part without line feeds ends before the next one
    have short : y.byteSize ≤ Text.byteSize (l.content ++ l.returns) := by
      by_contra long
      rw [← List.append_assoc] at split
      obtain ⟨x, rfl, rest⟩ := Text.exists_between split (Nat.le_of_not_le long)
      rw [Text.byteSize_append] at long
      rcases l.closed with none | feed
      · rw [none] at rest
        cases (List.append_eq_nil_iff.mp rest.symm).1
        simp at long
      · cases x with
        | nil => simp at long
        | cons c cs =>
          rw [rest] at feed
          cases feed
          exact inner (by simp)
    rw [Text.byteSize_append] at short ⊢
    simp only [Line.stop, Line.start]
    omega

/-! ## The position of an offset -/

/-- Positions move over one part of a text after the other. -/
lemma positionAfter_append (p : Position) (a b : Text) :
    positionAfter p (a ++ b) = positionAfter (positionAfter p a) b := by
  induction a generalizing p with
  | nil => rfl
  | cons c cs ih => exact ih _

/-- Within a line only the column grows. -/
lemma positionAfter_of_line {a : Text} (h : '\n' ∉ a) (p : Position) :
    positionAfter p a = ⟨p.line, p.character + units a⟩ := by
  induction a generalizing p with
  | nil => rfl
  | cons c cs ih =>
    have ne : c ≠ '\n' := fun e => h (e ▸ .head _)
    rw [positionAfter, if_neg (by simpa using ne), ih fun mem => h (.tail _ mem), units,
      Nat.add_assoc]

/-- The line moves down by one for each line feed. -/
lemma line_positionAfter (p : Position) (a : Text) :
    (positionAfter p a).line = p.line + a.count '\n' := by
  induction a generalizing p with
  | nil => rfl
  | cons c cs ih =>
    rw [positionAfter, ih]
    by_cases feed : c = '\n'
    · rw [if_pos (beq_iff_eq.mpr feed), feed, List.count_cons_self, Nat.add_right_comm,
        Nat.add_assoc]
    · rw [if_neg (by simpa using feed), List.count_cons_of_ne (by simpa using feed)]

/-- A line feed leads to the first column. -/
lemma positionAfter_opened {a : Text} (h : a = [] ∨ a.getLast? = some '\n') :
    positionAfter ⟨0, 0⟩ a = ⟨a.count '\n', 0⟩ := by
  rcases h with rfl | last
  · rfl
  · obtain ⟨front, rfl⟩ := List.getLast?_eq_some_iff.mp last
    rw [positionAfter_append, List.count_append]
    change Position.mk ((positionAfter ⟨0, 0⟩ front).line + 1) 0 = _
    rw [line_positionAfter, Nat.zero_add]
    rfl

/-- The numbers of a position are no larger than the text. -/
lemma positionOf_le (text : Text) (offset : Nat) :
    (positionOf text offset).line ≤ text.byteSize ∧
      (positionOf text offset).character ≤ text.byteSize := by
  have size := text.takeUpTo_byteSize_le offset
  rw [positionOf]
  generalize text.takeUpTo offset = a at size ⊢
  obtain ⟨before, y, rfl, opened, inner⟩ := exists_last_line a
  rw [positionAfter_append, positionAfter_opened opened, positionAfter_of_line inner]
  have column := units_le_byteSize y
  have feeds : before.count '\n' ≤ before.byteSize :=
    Nat.le_trans List.count_le_length before.length_le_byteSize
  rw [Text.byteSize_append] at size
  exact ⟨by dsimp only; omega, by dsimp only; omega⟩

namespace Line

variable {text : Text}

/-- The position of an offset is on its line, behind what stands on the line before it. -/
lemma positionOf_append (l : Line text) {y z : Text} (h : l.content ++ l.returns = y ++ z) :
    positionOf text (l.start + y.byteSize) = ⟨l.number, units y⟩ := by
  have split : text = (l.before ++ y) ++ (z ++ l.rest) := by
    refine l.whole.trans ?_
    rw [← List.append_assoc l.content, h, List.append_assoc, List.append_assoc]
  have inner : '\n' ∉ y := by
    intro mem
    have mem : '\n' ∈ l.content ++ l.returns := h ▸ List.mem_append_left _ mem
    rcases List.mem_append.mp mem with mem | mem
    · exact l.inner mem
    · cases l.blank _ mem
  have front := Text.takeUpTo_append (l.before ++ y) (z ++ l.rest)
  rw [← split, Text.byteSize_append] at front
  rw [positionOf, start, front, positionAfter_append, positionAfter_opened l.opened,
    positionAfter_of_line inner, Nat.zero_add]
  rfl

/-- From a boundary to its position and back: to itself, or to the end of the content before it. -/
lemma offsetIn?_positionOf (l : Line text) {offset : Nat} (boundary : text.isBoundary offset = true)
    (h : l.Holds offset) : (positionOf text offset).offsetIn? text = some (min offset l.stop) := by
  obtain ⟨a, b, whole, rfl⟩ := Text.exists_append_of_isBoundary boundary
  obtain ⟨y, rfl, behind⟩ := Text.exists_between (whole.symm.trans l.whole) h.1
  have within := h.2
  rw [Text.byteSize_append] at within ⊢
  simp only [stop, start] at within
  rw [← List.append_assoc] at behind
  obtain ⟨z, split, _⟩ := Text.exists_between behind (by rw [Text.byteSize_append]; omega)
  have position := l.positionOf_append split
  rw [start] at position
  rw [position, l.offsetIn? rfl, start, stop, start]
  rcases Nat.le_total y.byteSize l.content.byteSize with inside | outside
  · obtain ⟨w, content, _⟩ := Text.exists_between split inside
    rw [content, columnOffset_units, Nat.min_eq_left (by simp)]
  · obtain ⟨w, rfl, _⟩ := Text.exists_between split.symm outside
    rw [columnOffset_of_le (by simp), Nat.min_eq_right (by simp)]

end Line

/-! ## Requests -/

/-- A position on a line of a text has a boundary as its offset. -/
lemma isBoundary_of_offsetIn? {text : Text} {p : Position} {offset : Nat}
    (h : p.offsetIn? text = some offset) : text.isBoundary offset = true := by
  have line : p.line ≤ text.count '\n' := by
    by_contra behind
    have none : offsetOn? p.line p.character text = none :=
      offsetOn?_eq_none_iff.mpr (Nat.lt_of_not_le behind)
    rw [Position.offsetIn?, none] at h
    cases h
  obtain ⟨l, number⟩ := exists_line_number line
  obtain ⟨o, found, least | ⟨_, rfl⟩⟩ := l.offsetIn?_isLeast number
  · cases h.symm.trans found
    obtain ⟨x, y, split, _, rfl⟩ := least.1
    exact l.isBoundary split
  · cases h.symm.trans found
    exact l.isBoundary (List.append_nil _).symm

/--
A position has no offset if there are fewer line feeds than its line asks for. Otherwise its offset
is the first one between the characters of the line's content that is at the column or behind it,
and the end of the content if there is none. A boundary leads to a position with numbers no larger
than the text, and from there back to itself, or to the end of its line's content in front of it. So
a request at a position never complains about an offset.
-/
theorem positions_faithful (text : Text) :
    (∀ p : Position, p.offsetIn? text = none ↔ text.count '\n' < p.line) ∧
    (∀ p : Position, p.line ≤ text.count '\n' → ∃ l : Line text, l.number = p.line) ∧
    (∀ (p : Position) (l : Line text), l.number = p.line → ∃ offset,
      p.offsetIn? text = some offset ∧
      (IsLeast (l.columns p.character) offset ∨
        l.columns p.character = ∅ ∧ offset = l.stop)) ∧
    (∀ offset, text.isBoundary offset = true →
      (∃ l : Line text, l.Holds offset) ∧
      (positionOf text offset).line ≤ text.byteSize ∧
      (positionOf text offset).character ≤ text.byteSize ∧
      ∀ l : Line text, l.Holds offset →
        (positionOf text offset).offsetIn? text = some (min offset l.stop)) ∧
    (∀ config p offset size,
      itemsAtPosition config text p ≠ .error (.invalidOffset offset size)) := by
  refine ⟨fun p => offsetOn?_eq_none_iff, fun p h => exists_line_number h,
    fun p l h => l.offsetIn?_isLeast h, fun offset boundary => ?_, fun config p offset size => ?_⟩
  · obtain ⟨line, character⟩ := positionOf_le text offset
    exact ⟨exists_line_holds boundary, line, character,
      fun l holds => l.offsetIn?_positionOf boundary holds⟩
  · rw [itemsAtPosition, offsetOf]
    cases h : p.offsetIn? text with
    | none => exact nofun
    | some o =>
      simp only [itemsAt, completeAt, isBoundary_of_offsetIn? h, if_true]
      cases Completion.complete (parseTree text) text o with
      | none => exact nofun
      | some r => exact nofun

-- column 2 is within the two units of the second character, and offset 6 behind the return
example : Position.offsetIn? ⟨0, 2⟩ "a😀\r\nb".toList = some 5 ∧
    (positionOf "a😀\r\nb".toList 6).offsetIn? "a😀\r\nb".toList = some 5 := by
  decide

end Editor

end TypeqlAssist

import Mathlib.Data.List.DropRight
import TypeqlAssist.Proofs.Cases.Lines

/-!
# Reading line by line

What a line of a case file does depends on three things only: whether it separates cases, whether it
names a field, and whether a field is open (`readLine_ok_iff`). The number of the line counts in
errors alone, so lines lead from one state to another wherever they stand (`readLines_ok_iff`), and
the cases that have been read before are never looked at again (`Reads.frame`).
-/

namespace TypeqlAssist

namespace Cases

open Text

/-- The line between two cases. -/
def separator : Text :=
  ['-', '-', '-']

/-- A result that was mapped comes from one that is mapped to it. -/
lemma exists_of_map_ok {ε α β : Type} {f : α → β} {x : Except ε α} {b : β}
    (h : x.map f = .ok b) : ∃ a, x = .ok a ∧ f a = b := by
  cases x with
  | error => cases h
  | ok a => exact ⟨a, rfl, Except.ok.inj h⟩

/-! ## Lines that name fields -/

/-- The name of a field starts with no blank. -/
lemma Field.exists_cons_of_valueOn? {f : Field} {line value : Text}
    (h : f.valueOn? line = some value) : ∃ c cs, line = c :: cs ∧ isBlankChar c = false := by
  rw [valueOn?] at h
  split at h
  next front =>
    obtain ⟨rest, rfl⟩ := List.isPrefixOf_iff_prefix.mp front
    cases f <;> exact ⟨_, _, rfl, rfl⟩
  next => cases h

/-- A text that starts with no blank is not empty when trimmed. -/
lemma trim_ne_nil {c : Char} (h : isBlankChar c = false) (cs : Text) : trim (c :: cs) ≠ [] := by
  have start : trimStart (c :: cs) = c :: cs :=
    List.dropWhile_cons_of_neg (Bool.eq_false_iff.mp h)
  rw [trim, start, trimEnd, ne_eq, List.reverse_eq_nil_iff, List.dropWhile_eq_nil_iff]
  intro all
  have blank := all c (List.mem_reverse.mpr List.mem_cons_self)
  rw [h] at blank
  cases blank

/-- A line that names a field is not blank. -/
lemma Field.trim_ne_nil_of_ofLine? {f : Field} {line value : Text}
    (h : Field.ofLine? line = some (f, value)) : trim line ≠ [] := by
  obtain ⟨g, _, named⟩ := List.exists_of_findSome?_eq_some h
  obtain ⟨v, found, _⟩ := Option.map_eq_some_iff.mp named
  obtain ⟨c, cs, rfl, solid⟩ := exists_cons_of_valueOn? found
  exact trim_ne_nil solid cs

namespace Draft

variable {d : Draft} {c : Case} {n : Nat}

/-- The case of a draft with a description and an input. -/
def caseOf (d : Draft) (description : String) (input : Text) : Case :=
  ⟨description, input, d.expected, d.excluded, d.mode.getD .contains⟩

/-- A draft is a case if it has a description and an input that marks the cursor. -/
lemma finish_ok_iff : d.finish n = .ok c ↔
    ∃ description input, d.description = some description ∧ d.input = some input ∧
      input.contains '|' = true ∧ c = d.caseOf description input := by
  obtain ⟨description, input, expected, excluded, mode⟩ := d
  rcases description with _ | description
  · simp [finish]
  rcases input with _ | input
  · simp [finish]
  simp only [finish, Option.some.injEq]
  split
  next cursor =>
    constructor
    · intro h
      exact ⟨description, input, rfl, rfl, cursor, (Except.ok.inj h).symm⟩
    · rintro ⟨_, _, rfl, rfl, _, rfl⟩
      rfl
  next none =>
    constructor
    · exact nofun
    · rintro ⟨_, _, rfl, rfl, cursor, rfl⟩
      exact absurd cursor none

end Draft

namespace Progress

variable {p q r : Progress} {n : Nat} {line : Text}

/-! ## One line -/

/-- Closing a field sets it in the draft, and without one changes nothing. -/
lemma closeField_ok_iff : p.closeField = .ok q ↔
    (p.field = none ∧ q = p) ∨
      ∃ f value d, p.field = some (f, value) ∧ p.draft.set f value = .ok d ∧
        q = ⟨d, none, p.cases⟩ := by
  obtain ⟨draft, field, cases_⟩ := p
  rcases field with _ | ⟨f, value⟩
  · simp [closeField, eq_comm]
  · cases e : draft.set f value with
    | error => simp [closeField, e, Except.map]
    | ok d =>
      simp only [closeField, e, Except.map, Except.ok.injEq, reduceCtorEq, false_and, false_or,
        Option.some.injEq, Prod.mk.injEq]
      constructor
      · rintro rfl
        exact ⟨f, value, d, ⟨rfl, rfl⟩, e, rfl⟩
      · rintro ⟨_, _, _, ⟨rfl, rfl⟩, set, rfl⟩
        cases e.symm.trans set
        rfl

/-- Once its field is set, no field is open and the cases are as before. -/
lemma closeField_closed (h : p.closeField = .ok q) : q.field = none ∧ q.cases = p.cases := by
  rcases closeField_ok_iff.mp h with ⟨none, rfl⟩ | ⟨_, _, _, _, _, rfl⟩
  · exact ⟨none, rfl⟩
  · exact ⟨rfl, rfl⟩

/-- What a line that can be read does. -/
inductive Step : Progress → Text → Progress → Prop where
  | skip {p : Progress} {line : Text} :
    trim line = [] →
    p.field = none →
    Step p line p
  | goOn {p q : Progress} {line : Text} :
    trim line = separator →
    p.closeField = .ok q →
    q.draft.hasFields = false →
    Step p line q
  | finish {p q : Progress} {line : Text} {description : String} {input : Text} :
    trim line = separator →
    p.closeField = .ok q →
    q.draft.description = some description →
    q.draft.input = some input →
    input.contains '|' = true →
    Step p line ⟨.blank, none, q.cases ++ [q.draft.caseOf description input]⟩
  | field {p q : Progress} {line : Text} {f : Field} {value : Text} :
    trim line ≠ separator →
    Field.ofLine? line = some (f, value) →
    p.closeField = .ok q →
    Step p line ⟨q.draft, some (f, firstLines value), q.cases⟩
  | value {p : Progress} {line : Text} {f : Field} {value : List Text} :
    trim line ≠ separator →
    Field.ofLine? line = none →
    p.field = some (f, value) →
    Step p line ⟨p.draft, some (f, value ++ [line]), p.cases⟩

/-- A separating line closes the case. -/
lemma readLine_separator (h : trim line = separator) : p.readLine n line = p.closeCase n := by
  simp only [readLine, h]
  rfl

/-- A line that names a field closes the field before it and opens its own. -/
lemma readLine_field {f : Field} {value : Text} (other : trim line ≠ separator)
    (h : Field.ofLine? line = some (f, value)) :
    p.readLine n line =
      p.closeField.map fun q => ⟨q.draft, some (f, firstLines value), q.cases⟩ := by
  have solid : (trim line).isEmpty = false := List.isEmpty_eq_false_iff.mpr
    (Field.trim_ne_nil_of_ofLine? h)
  simp only [readLine, h, solid, Bool.false_and, Bool.false_eq_true, if_false]
  exact if_neg (fun e => other (eq_of_beq e))

/-- Any other line goes on with the value of the open field. -/
lemma readLine_value {f : Field} {value : List Text} (other : trim line ≠ separator)
    (h : Field.ofLine? line = none) (open_ : p.field = some (f, value)) :
    p.readLine n line = .ok ⟨p.draft, some (f, value ++ [line]), p.cases⟩ := by
  simp only [readLine, h, open_, Option.isNone_some, Bool.and_false, Bool.false_eq_true, if_false]
  exact if_neg (fun e => other (eq_of_beq e))

/-- Closing a case closes the field, and then makes a case if a field was given. -/
lemma closeCase_eq {q : Progress} (h : p.closeField = .ok q) : p.closeCase n =
    if q.draft.hasFields then
      (q.draft.finish n).map fun c => ⟨.blank, none, q.cases ++ [c]⟩
    else .ok q := by
  obtain ⟨closed, _⟩ := closeField_closed h
  obtain ⟨draft, field, cases_⟩ := q
  cases closed
  simp only [closeCase, h]

/-- The steps are what lines do that can be read, whatever their numbers are. -/
theorem readLine_ok_iff : p.readLine n line = .ok q ↔ Step p line q := by
  constructor
  · intro h
    -- the line decides first, and what is open only where it neither separates nor names a field
    by_cases sep : trim line = separator
    · rw [readLine_separator sep] at h
      cases closed : p.closeField with
      | error => simp [closeCase, closed] at h
      | ok p' =>
        rw [closeCase_eq closed] at h
        split at h
        next =>
          obtain ⟨c, made, rfl⟩ := exists_of_map_ok h
          obtain ⟨_, _, he, hi, cursor, rfl⟩ := Draft.finish_ok_iff.mp made
          exact .finish sep closed he hi cursor
        next none =>
          cases h
          exact .goOn sep closed (Bool.eq_false_iff.mpr none)
    cases named : Field.ofLine? line with
    | some found =>
      rw [readLine_field sep named] at h
      obtain ⟨p', closed, rfl⟩ := exists_of_map_ok h
      exact .field sep named closed
    | none =>
      cases field : p.field with
      | some found =>
        rw [readLine_value sep named field] at h
        cases h
        exact .value sep named field
      | none =>
        simp only [readLine, named, field, Option.isNone_none, Bool.and_true] at h
        split at h
        next blank =>
          cases h
          exact .skip (List.isEmpty_iff.mp blank) field
        next =>
          split at h
          next e => exact absurd (eq_of_beq e) sep
          next => cases h
  · intro h
    cases h with
    | skip blank closed => simp [readLine, blank, closed]
    | goOn sep closed none =>
      rw [readLine_separator sep, closeCase_eq closed, none]
      rfl
    | @finish q _ description input sep closed he hi cursor =>
      have case_ : q.draft.finish n = .ok (q.draft.caseOf description input) :=
        Draft.finish_ok_iff.mpr ⟨_, _, he, hi, cursor, rfl⟩
      rw [readLine_separator sep, closeCase_eq closed, Draft.hasFields, he, case_]
      rfl
    | field other named closed =>
      rw [readLine_field other named, closed]
      rfl
    | value other named open_ => exact readLine_value other named open_

/-! ## All lines -/

/-- Lines lead from one state to another. -/
inductive Reads : Progress → List Text → Progress → Prop where
  | nil {p : Progress} :
    Reads p [] p
  | cons {p q r : Progress} {line : Text} {rest : List Text} :
    Step p line q →
    Reads q rest r →
    Reads p (line :: rest) r

/-- Lines are read from one state to another if each of them takes its step. -/
theorem readLines_ok_iff {ls : List Text} : p.readLines n ls = .ok q ↔ Reads p ls q := by
  constructor
  · intro h
    induction ls generalizing p n with
    | nil =>
      cases h
      exact .nil
    | cons line rest ih =>
      rw [readLines] at h
      split at h
      next => cases h
      next step => exact .cons (readLine_ok_iff.mp step) (ih h)
  · intro h
    induction h generalizing n with
    | nil => rfl
    | cons step _ ih =>
      rw [readLines, readLine_ok_iff.mpr step]
      exact ih

/-- Lines are read one part after the other. -/
lemma Reads.append {a b : List Text} (h : Reads p a q) (h' : Reads q b r) : Reads p (a ++ b) r := by
  induction h with
  | nil => exact h'
  | cons step _ ih => exact .cons step (ih h')

/-- What is read in two parts has a state between them. -/
lemma Reads.split {a b : List Text} (h : Reads p (a ++ b) r) : ∃ q, Reads p a q ∧ Reads q b r := by
  induction a generalizing p with
  | nil => exact ⟨p, .nil, h⟩
  | cons line a ih =>
    cases h with
    | cons step rest =>
      obtain ⟨q, front, behind⟩ := ih rest
      exact ⟨q, .cons step front, behind⟩

/-- Closing a field does not look at the cases read before. -/
lemma closeField_cases (h : p.closeField = .ok q) (cs : List Case) :
    closeField ⟨p.draft, p.field, cs⟩ = .ok ⟨q.draft, q.field, cs⟩ := by
  rcases closeField_ok_iff.mp h with ⟨none, rfl⟩ | ⟨f, value, d, field, set, rfl⟩
  · exact closeField_ok_iff.mpr (.inl ⟨none, rfl⟩)
  · exact closeField_ok_iff.mpr (.inr ⟨f, value, d, field, set, rfl⟩)

/-- A line adds the same cases whatever has been read before. -/
lemma Step.frame (h : Step p line q) : ∃ new, q.cases = p.cases ++ new ∧
    ∀ cs, Step ⟨p.draft, p.field, cs⟩ line ⟨q.draft, q.field, cs ++ new⟩ := by
  cases h with
  | skip blank closed =>
    refine ⟨[], (List.append_nil _).symm, fun cs => ?_⟩
    rw [List.append_nil]
    exact .skip blank closed
  | goOn sep closed none =>
    refine ⟨[], ?_, fun cs => ?_⟩
    · rw [List.append_nil, (closeField_closed closed).2]
    · rw [List.append_nil]
      exact .goOn sep (closeField_cases closed cs) none
  | finish sep closed he hi cursor =>
    refine ⟨_, congrArg (· ++ _) (closeField_closed closed).2, fun cs => ?_⟩
    exact .finish sep (closeField_cases closed cs) he hi cursor
  | field other named closed =>
    refine ⟨[], ?_, fun cs => ?_⟩
    · rw [List.append_nil]
      exact (closeField_closed closed).2
    · rw [List.append_nil]
      exact .field other named (closeField_cases closed cs)
  | value other named field =>
    refine ⟨[], (List.append_nil _).symm, fun cs => ?_⟩
    rw [List.append_nil]
    exact .value other named field

/-- Lines add the same cases whatever has been read before. -/
lemma Reads.frame {ls : List Text} (h : Reads p ls q) : ∃ new, q.cases = p.cases ++ new ∧
    ∀ cs, Reads ⟨p.draft, p.field, cs⟩ ls ⟨q.draft, q.field, cs ++ new⟩ := by
  induction h with
  | nil =>
    refine ⟨[], (List.append_nil _).symm, fun cs => ?_⟩
    rw [List.append_nil]
    exact .nil
  | cons step _ ih =>
    obtain ⟨first, e, step⟩ := step.frame
    obtain ⟨more, e', rest⟩ := ih
    refine ⟨first ++ more, by rw [e', e, List.append_assoc], fun cs => ?_⟩
    rw [← List.append_assoc]
    exact .cons (step cs) (rest _)

end Progress

/-! ## Errors -/

/-- Going through a list fails at one of its members. -/
lemma exists_of_mapM_error {ε α β : Type} {f : α → Except ε β} {xs : List α} {e : ε}
    (h : xs.mapM f = .error e) : ∃ x ∈ xs, f x = .error e := by
  induction xs with
  | nil => cases h
  | cons x xs ih =>
    rw [List.mapM_cons] at h
    cases first : f x with
    | error =>
      rw [first] at h
      cases h
      exact ⟨x, .head xs, first⟩
    | ok b =>
      cases rest : xs.mapM f with
      | error e' =>
        rw [first, rest] at h
        cases h
        obtain ⟨y, hy, failed⟩ := ih rest
        exact ⟨y, .tail x hy, failed⟩
      | ok bs =>
        rw [first, rest] at h
        cases h

/-- Mapping a result keeps its error. -/
lemma error_of_map {ε α β : Type} {f : α → β} {x : Except ε α} {e : ε}
    (h : x.map f = .error e) : x = .error e := by
  cases x with
  | error => exact congrArg _ (Except.error.inj h)
  | ok a => cases h

/-- The blanks around a text are gone when it is trimmed once. -/
lemma trim_trim (text : Text) : trim (trim text) = trim text := by
  have front : trimStart (trim text) = trim text := by
    refine List.dropWhile_eq_self_iff.mpr fun some => ?_
    -- the end that is cut off leaves the first character, which is no blank
    have same : trim text <+: trimStart text := List.rdropWhile_prefix _ _
    rw [same.getElem some]
    exact List.dropWhile_get_zero_not _ text (Nat.lt_of_lt_of_le some same.length_le)
  rw [trim, front]
  exact List.rdropWhile_idempotent isBlankChar (trimStart text)

/-- An item that cannot be read is empty, or the error names it. -/
lemma Expected.read_error {line : Text} {e : ReadError} (h : Expected.read line = .error e) :
    trim line = [] ∧ e = .invalidExpected "empty item".toList ∨
      e = .invalidExpected (trim line) := by
  simp only [Expected.read] at h
  split at h
  next empty =>
    cases h
    exact .inl ⟨List.isEmpty_iff.mp empty, rfl⟩
  next =>
    repeat' split at h
    all_goals cases h
    exact .inr rfl

/-- No line of a value is an empty item, and an error names the line. -/
lemma Draft.set_expected_error {d : Draft} {value : List Text} {e : ReadError}
    (h : d.set .expected value = .error e) : ∃ line ∈ entries value, e = .invalidExpected line := by
  obtain ⟨item, hi, failed⟩ := exists_of_mapM_error (error_of_map h)
  obtain ⟨mem, some⟩ := List.mem_filter.mp hi
  obtain ⟨line, _, rfl⟩ := List.mem_map.mp mem
  have error := Expected.read_error failed
  rw [trim_trim] at error
  refine ⟨trim line, hi, error.resolve_left fun empty => ?_⟩
  simp [empty.1] at some

/-- A mode that cannot be read is reported as it was given. -/
lemma Mode.read_error {text : Text} {e : ReadError} (h : Mode.read text = .error e) :
    e = .invalidMode text := by
  unfold Mode.read at h
  split at h
  all_goals cases h
  rfl

/-- Setting a field never fails for an empty file. -/
lemma Draft.set_error {d : Draft} {f : Field} {value : List Text} {e : ReadError}
    (h : d.set f value = .error e) : e ≠ .emptyFile := by
  cases f with
  | expected =>
    obtain ⟨line, _, rfl⟩ := set_expected_error h
    exact nofun
  | mode =>
    rw [Mode.read_error (error_of_map h)]
    exact nofun
  | _ => cases h

/-- Making a case never fails for an empty file. -/
lemma Draft.finish_error {d : Draft} {n : Nat} {e : ReadError} (h : d.finish n = .error e) :
    e ≠ .emptyFile := by
  unfold finish at h
  repeat' split at h
  all_goals cases h
  all_goals exact nofun

namespace Progress

variable {p : Progress} {n : Nat} {e : ReadError}

/-- Closing a field never fails for an empty file. -/
lemma closeField_error (h : p.closeField = .error e) : e ≠ .emptyFile := by
  unfold closeField at h
  split at h
  · cases h
  · exact Draft.set_error (error_of_map h)

/-- Closing a case never fails for an empty file. -/
lemma closeCase_error (h : p.closeCase n = .error e) : e ≠ .emptyFile := by
  unfold closeCase at h
  split at h
  next e' failed =>
    cases h
    exact closeField_error failed
  next =>
    split at h
    · exact Draft.finish_error (error_of_map h)
    · cases h

/-- Reading a line never fails for an empty file. -/
lemma readLine_error {line : Text} (h : p.readLine n line = .error e) : e ≠ .emptyFile := by
  simp only [readLine] at h
  split at h
  · cases h
  split at h
  · exact closeCase_error h
  split at h
  · exact closeField_error (error_of_map h)
  split at h
  · cases h
  · cases h
    exact nofun

/-- No line is to blame for a file without cases. -/
lemma readLines_error {ls : List Text} (h : p.readLines n ls = .error e) : e ≠ .emptyFile := by
  induction ls generalizing p n with
  | nil => cases h
  | cons line rest ih =>
    rw [readLines] at h
    split at h
    next failed =>
      cases h
      exact readLine_error failed
    next => exact ih h

end Progress

end Cases

end TypeqlAssist

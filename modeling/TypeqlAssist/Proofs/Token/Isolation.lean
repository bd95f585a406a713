import TypeqlAssist.Completion.Word
import TypeqlAssist.Proofs.Token.Exchange

/-!
# A word behind a blank

No token ends with a blank while a line goes on. So what stands in front of a word behind a blank
ends in front of the blank (`stop_le_of_blank`), and if a label starts there, it is the whole word
or another token follows it at once (`label_of_word`).
-/

namespace TypeqlAssist

namespace Completion

/-- A blank belongs to no word. -/
lemma isWordChar_of_isBlank {s : Char} (hs : Lexer.isBlank s = true) : isWordChar s = false :=
  Lexer.forall_isBlank (P := (isWordChar · = false)) (by decide) hs

end Completion

namespace Lexer

variable {c d s : Char} {cs ds : Text}

/-- A string goes on within its line. -/
lemma stringLength_pos (quote : Char) (h : d ≠ '\n') (ds : Text) :
    0 < stringLength quote (d :: ds) := by
  have other : (d == '\n') = false := beq_eq_false_iff_ne.mpr h
  cases ds with
  | nil =>
    rw [stringLength, other]
    exact Nat.one_pos
  | cons e ds =>
    rw [stringLength, other]
    split
    · exact Nat.succ_pos _
    · split
      next newline => cases newline
      split <;> exact Nat.succ_pos _

/-- A string ends with its quote or in front of a line feed. -/
lemma stringLength_ends (quote : Char) (h : d ≠ '\n') : ∀ cs : Text,
    stringLength quote (cs ++ d :: ds) = cs.length → cs.getLast? = some quote
  | [], e => absurd e (Nat.ne_of_gt (stringLength_pos quote h ds))
  | [c], e => by
    have pos := stringLength_pos quote h ds
    rw [List.singleton_append, stringLength, List.length_singleton] at e
    split at e
    · omega
    split at e
    · omega
    split at e
    next closed => rw [eq_of_beq closed]; rfl
    next => omega
  | c :: f :: cs, e => by
    have escaped := stringLength_ends quote h cs
    have later := stringLength_ends quote h (f :: cs)
    rw [List.cons_append, List.cons_append, stringLength, List.length_cons, List.length_cons] at e
    split at e
    next =>
      have last := escaped (Nat.add_right_cancel e)
      rw [List.getLast?_cons_cons, List.getLast?_cons, last]
      rfl
    split at e
    · omega
    split at e
    · omega
    next =>
      rw [List.getLast?_cons_cons]
      exact later (Nat.succ_inj.mp e)

/-- No token ends with a blank in front of something that is no line feed. -/
lemma measure_ends (hs : isBlank s = true) (hd : d ≠ '\n') (hc : isBlank c = false) {v : Text}
    (e : c :: cs = v ++ s :: d :: ds) : (measure c cs).2 ≠ v.length + 1 := by
  intro ends
  cases v with
  | nil =>
    cases e
    rw [hs] at hc
    cases hc
  | cons _ v =>
    cases e
    cases quote : c == '"' || c == apostrophe with
    | true =>
      rw [measure_quote quote, List.length_cons] at ends
      have string : stringLength c ((v ++ [s]) ++ d :: ds) = (v ++ [s]).length := by
        rw [List.append_assoc, List.length_append]
        exact Nat.succ_inj.mp ends
      have last := stringLength_ends c hd (v ++ [s]) string
      rw [List.getLast?_concat] at last
      cases last
      rcases Bool.or_eq_true_iff.mp quote with e | e <;> cases eq_of_beq e <;> cases hs
    | false =>
      have same : measure c (v ++ s :: d :: ds) = measure c v :=
        measure_append_of_string (separates_of_isBlank hs) fun string => by
          rw [quote] at string
          cases string
      have le := measure_le c v
      change (measure c (v ++ s :: d :: ds)).2 = _ at ends
      rw [same, List.length_cons] at ends
      omega

/-- A label starts as words do. -/
lemma startsWord_of_label (h : (measure c cs).1 = .label) : startsWord c = true := by
  unfold measure at h
  split at h
  · cases h
  split at h
  next letter => exact letter
  split at h
  · cases h
  split at h
  · cases h
  · exact absurd h (measureSymbol_ne_label c cs)

/-- Blanks and comments do not start with a character of a word. -/
lemma isSolid_of_isWordChar (h : Completion.isWordChar d = true) : isBlank d = false ∧ d ≠ '#' := by
  constructor
  · refine Bool.eq_false_iff.mpr fun blank => ?_
    rw [Completion.isWordChar_of_isBlank blank] at h
    cases h
  · rintro rfl
    cases h

end Lexer

open Lexer

/-- What stands in front of a word behind a blank ends in front of the blank. -/
theorem stop_lt_of_blank {s d : Char} (hs : isBlank s = true) (hd : d ≠ '\n') {a b : Text} {t : Token}
    (h : t ∈ tokenize (a ++ s :: d :: b)) (stop : t.stop ≤ Text.byteSize (a ++ [s])) :
    t.stop < Text.byteSize (a ++ [s]) := by
  refine Nat.lt_of_le_of_ne stop fun ends => ?_
  obtain ⟨x, c, cs, e, rfl, solid⟩ := tokenize_solid h
  have size : Text.byteSize (x ++ (c :: cs).take (measure c cs).2) = Text.byteSize (a ++ [s]) :=
    (Text.byteSize_append _ _).trans ends
  have whole : x ++ (c :: cs).take (measure c cs).2 ++ (c :: cs).drop (measure c cs).2 =
      a ++ [s] ++ d :: b := by
    rw [List.append_assoc, List.take_append_drop, ← e, List.append_assoc]
    rfl
  obtain ⟨front, behind⟩ := Text.append_inj_byteSize whole size
  have pos := measure_pos c cs
  have length : ((c :: cs).take (measure c cs).2).length = (measure c cs).2 :=
    List.length_take_of_le (measure_le c cs)
  obtain ⟨v, last⟩ : ∃ v, (c :: cs).take (measure c cs).2 = v ++ [s] := by
    rcases List.append_eq_append_iff.mp front with ⟨v, _, e⟩ | ⟨v, _, e⟩
    · exact ⟨v, e⟩
    · cases v with
      | nil => exact ⟨[], e.symm⟩
      | cons _ v =>
        have none := (List.append_eq_nil_iff.mp (List.cons.inj e).2.symm).2
        rw [none, List.length_nil] at length
        omega
  have parts : c :: cs = v ++ s :: d :: b := by
    rw [← List.take_append_drop (measure c cs).2 (c :: cs), last, behind, List.append_assoc]
    rfl
  refine measure_ends hs hd solid.1 parts ?_
  rw [← length, last, List.length_append]
  rfl

/-- A label at the start of a word is the whole word, or another token follows it at once. -/
theorem label_of_word {a w : Text} {t : Token} (hw : ∀ c ∈ w, Completion.isWordChar c = true)
    (ht : t ∈ tokenize (a ++ w)) (label : t.kind = .label) (start : t.start = a.byteSize) :
    (∃ c cs, w = c :: cs ∧ startsWord c = true) ∧
      (t.stop = Text.byteSize (a ++ w) ∨ ∃ u ∈ tokenize (a ++ w), u.start = t.stop) := by
  obtain ⟨x, c, cs, e, rfl⟩ := tokenize_measured ht
  obtain ⟨rfl, rfl⟩ := Text.append_inj_byteSize e start.symm
  have word : startsWord c = true := startsWord_of_label label
  refine ⟨⟨c, cs, rfl, word⟩, ?_⟩
  have cut := tokenize_append_of_start word cs ht rfl
  have trivia : triviaLength ([] ++ c :: cs) = 0 := triviaLength_of_startsWord word cs
  have first := tokenize_cons trivia
  have split := List.take_append_drop (measure c cs).2 (c :: cs)
  have size := congrArg Text.byteSize split
  rw [Text.byteSize_append] at size
  rw [List.nil_append, Text.byteSize_nil, Nat.zero_add] at first
  cases rest : (c :: cs).drop (measure c cs).2 with
  | nil =>
    rw [rest, Text.byteSize_nil] at size
    left
    rw [Text.byteSize_append, ← size]
    rfl
  | cons d ds =>
    right
    have solid := isSolid_of_isWordChar (hw d (List.mem_of_mem_drop (rest ▸ List.mem_cons_self)))
    have follows : triviaLength ([] ++ d :: ds) = 0 := triviaLength_of_solid solid ds
    rw [rest, ← List.nil_append (d :: ds), tokenize_cons follows] at first
    rw [cut, first]
    refine ⟨_, List.mem_append_right _ (List.mem_cons_of_mem _ List.mem_cons_self), rfl⟩

end TypeqlAssist

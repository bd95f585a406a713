import Mathlib.Data.List.Chain
import TypeqlAssist.Proofs.Token.Scanning

/-!
# What stands between tokens

Tokens and gaps make up a document. The tokens stand in order, each has a width and starts and ends
with a character, and a gap holds blanks and comments only (`tokenize_partition`). A comment goes up
to the next line feed, which is a blank of the gap, or to the end of the document.
-/

namespace TypeqlAssist

open Lexer

/-! ## Blanks and comments -/

/-- Nothing stands in a text before its first line ends. -/
def EndsLine (text : Text) : Prop :=
  text = [] ∨ text.head? = some '\n'

/-- Blanks and comments, with a text that stands behind them. -/
inductive Trivia (after : Text) : Text → Prop where
  | nil :
    Trivia after []
  | blank {c gap} :
    isBlank c = true →
    Trivia after gap →
    Trivia after (c :: gap)
  | comment {body gap} :
    '\n' ∉ body →
    EndsLine (gap ++ after) →
    Trivia after gap →
    Trivia after ('#' :: (body ++ gap))

mutual

/-- What is skipped in front of a token is blanks and comments. -/
lemma trivia_take : ∀ text : Text,
    Trivia (text.drop (triviaLength text)) (text.take (triviaLength text))
  | [] => .nil
  | c :: cs => by
    have rest := trivia_take cs
    have inside := comment_take cs
    rw [triviaLength]
    split
    next blank =>
      rw [List.take_succ_cons, List.drop_succ_cons]
      exact .blank blank rest
    next =>
    split
    next sign =>
      cases eq_of_beq sign
      obtain ⟨body, gap, taken, line, ends, trivia⟩ := inside
      rw [List.take_succ_cons, List.drop_succ_cons, taken]
      exact .comment line ends trivia
    next => exact .nil

/-- In a comment, the rest of the line comes first. -/
lemma comment_take : ∀ text : Text, ∃ body gap : Text,
    text.take (commentLength text) = body ++ gap ∧ '\n' ∉ body ∧
      EndsLine (gap ++ text.drop (commentLength text)) ∧
      Trivia (text.drop (commentLength text)) gap
  | [] => ⟨[], [], rfl, nofun, .inl rfl, .nil⟩
  | c :: cs => by
    have rest := trivia_take cs
    have inside := comment_take cs
    rw [commentLength]
    split
    next newline =>
      cases eq_of_beq newline
      rw [List.take_succ_cons, List.drop_succ_cons]
      exact ⟨[], _, rfl, nofun, .inr rfl, .blank rfl rest⟩
    next other =>
      obtain ⟨body, gap, taken, line, ends, trivia⟩ := inside
      rw [List.take_succ_cons, List.drop_succ_cons, taken]
      refine ⟨c :: body, gap, rfl, ?_, ends, trivia⟩
      rw [List.mem_cons, not_or]
      exact ⟨fun e => other (beq_iff_eq.mpr e.symm), line⟩

end

/-! ## Gaps -/

/-- The spans in front of, between and behind some tokens, from an offset up to another. -/
def gaps (stop : Nat) : (start : Nat) → List Token → List (Nat × Nat)
  | start, [] => [(start, stop)]
  | start, t :: ts => (start, t.start) :: gaps stop t.stop ts

/-- The span holds blanks and comments. -/
def IsGap (text : Text) (span : Nat × Nat) : Prop :=
  ∃ before gap after : Text, text = before ++ (gap ++ after) ∧
    span = (before.byteSize, before.byteSize + gap.byteSize) ∧ Trivia after gap

/-- Between the tokens of a last part of a text there are gaps. -/
lemma isGap_of_mem {text : Text} {a b : Text} (e : text = a ++ b) :
    ∀ span ∈ gaps text.byteSize a.byteSize ((tokenize b).map (Token.shift a.byteSize)),
      IsGap text span := by
  induction b using gap_induction generalizing a with
  | trivia b none =>
    have trivia := trivia_take b
    rw [none, List.drop_length, List.take_length] at trivia
    rw [tokenize_trivia none]
    refine List.forall_mem_cons.mpr ⟨⟨a, b, [], ?_, ?_, trivia⟩, nofun⟩
    · rw [List.append_nil, e]
    · rw [e, Text.byteSize_append]
  | token gap c cs length ih =>
    have trivia := trivia_take (gap ++ c :: cs)
    rw [length, List.drop_left, List.take_left] at trivia
    have behind := ih (a := a ++ gap ++ (c :: cs).take (measure c cs).2) ?_
    · rw [tokenize_cons length, List.map_cons, map_shift_shift]
      rw [Text.byteSize_append, Text.byteSize_append, Nat.add_assoc] at behind
      exact List.forall_mem_cons.mpr ⟨⟨a, gap, c :: cs, e, rfl, trivia⟩, behind⟩
    · rw [List.append_assoc _ ((c :: cs).take _), List.take_append_drop, e, List.append_assoc]

/-- A token ends where the next one starts, or in front of it. -/
lemma Spaced.isChain {P : Nat → Prop} {eof lo : Nat} {ts : List Token} (h : Spaced P eof lo ts) :
    ts.IsChain fun t u => t.stop ≤ u.start :=
  h.pairwise.2.isChain

/--
The scanner splits the bytes of a text into tokens and gaps. Each token has a width, lies within the
text and starts and ends where a character does; no two overlap; and what stands in front of the
first, between two of them and behind the last is blanks and comments.
-/
theorem tokenize_partition (text : Text) :
    Scanner.tokenize text.bytes = tokenize text ∧
      (∀ t ∈ tokenize text, t.start < t.stop ∧ t.stop ≤ text.byteSize ∧
        text.isBoundary t.start = true ∧ text.isBoundary t.stop = true) ∧
      ((tokenize text).IsChain fun t u => t.stop ≤ u.start) ∧
      ∀ span ∈ gaps text.byteSize 0 (tokenize text), IsGap text span := by
  have spaced := tokenize_spaced text
  refine ⟨Scanner.tokenize_bytes text, fun t ht => ?_, spaced.isChain, ?_⟩
  · obtain ⟨start, stop⟩ := spaced.ends t ht
    exact ⟨spaced.width t ht, Text.le_of_isBoundary stop, start, stop⟩
  · have whole := isGap_of_mem (text.nil_append : [] ++ text = text).symm
    rwa [Text.byteSize_nil, map_shift_zero] at whole

end TypeqlAssist

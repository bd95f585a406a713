import Mathlib.Tactic.Lemma
import TypeqlAssist.Token.Lexer

/-!
# The spacing of tokens

Tokens stand in order, each has a width, and all their ends are boundaries of the text. The
relation `Spaced` says so for any list of tokens and any notion of boundary; `tokenize_spaced`
shows it for the tokens of a text.
-/

namespace TypeqlAssist

namespace Text

/-- Bytes behind a first part are dropped from the second part. -/
lemma dropBytes?_add (a b : Text) (n : Nat) :
    dropBytes? (a.byteSize + n) (a ++ b) = dropBytes? n b := by
  induction a with
  | nil => rw [byteSize_nil, Nat.zero_add, List.nil_append]
  | cons c cs ih =>
    have pos := c.utf8Size_pos
    obtain ⟨m, e⟩ : ∃ m, c.utf8Size + byteSize cs + n = m + 1 :=
      ⟨_, (Nat.succ_pred (by omega)).symm⟩
    rw [byteSize_cons, List.cons_append, e, dropBytes?, if_pos (by omega), ← e, Nat.add_assoc,
      Nat.add_sub_cancel_left]
    exact ih

/-- Dropping the bytes of a first part leaves the second part. -/
lemma dropBytes?_append (a b : Text) : dropBytes? a.byteSize (a ++ b) = some b := by
  have none := dropBytes?_add a b 0
  rwa [Nat.add_zero, dropBytes?] at none

/-- The end of a first part is a boundary of the whole. -/
lemma isBoundary_append (a b : Text) : isBoundary (a ++ b) a.byteSize = true := by
  rw [isBoundary, dropBytes?_append]
  rfl

/-- A text ends at a boundary. -/
lemma isBoundary_byteSize (text : Text) : text.isBoundary text.byteSize = true := by
  have h := isBoundary_append text []
  rwa [List.append_nil] at h

/-- A boundary lies within its text. -/
lemma le_of_isBoundary {text : Text} {n : Nat} (h : text.isBoundary n = true) :
    n ≤ text.byteSize := by
  unfold isBoundary at h
  induction n, text using dropBytes?.induct with
  | case1 cs => exact Nat.zero_le _
  | case2 n => simp [dropBytes?] at h
  | case3 n c cs le ih =>
    rw [dropBytes?, if_pos le] at h
    have h := ih h
    rw [byteSize_cons]
    omega
  | case4 n c cs lt => simp [dropBytes?, lt] at h

end Text

/--
Tokens that stand in order between an offset and the end of the input: each has a width, and both
its ends satisfy `P`.
-/
inductive Spaced (P : Nat → Prop) (eof : Nat) : Nat → List Token → Prop where
  | nil {lo} :
    lo ≤ eof →
    Spaced P eof lo []
  | cons {lo t ts} :
    lo ≤ t.start →
    t.start < t.stop →
    P t.start →
    P t.stop →
    Spaced P eof t.stop ts →
    Spaced P eof lo (t :: ts)

section

variable {P : Nat → Prop} {eof lo : Nat} {ts : List Token}

/-- Spaced tokens have a width. -/
lemma Spaced.width (h : Spaced P eof lo ts) : ∀ t ∈ ts, t.start < t.stop := by
  induction h with
  | nil => exact nofun
  | cons _ lt _ _ _ ih => exact List.forall_mem_cons.mpr ⟨lt, ih⟩

/-- Both ends of every token satisfy the condition. -/
lemma Spaced.ends (h : Spaced P eof lo ts) : ∀ t ∈ ts, P t.start ∧ P t.stop := by
  induction h with
  | nil => exact nofun
  | cons _ _ start stop _ ih => exact List.forall_mem_cons.mpr ⟨⟨start, stop⟩, ih⟩

/-- Tokens do not overlap. -/
lemma Spaced.pairwise (h : Spaced P eof lo ts) :
    (∀ t ∈ ts, lo ≤ t.start) ∧ ts.Pairwise fun t u => t.stop ≤ u.start := by
  induction h with
  | nil => exact ⟨nofun, .nil⟩
  | cons le lt _ _ _ ih =>
    refine ⟨List.forall_mem_cons.mpr ⟨le, ?_⟩, .cons ih.1 ih.2⟩
    intro u hu
    have after := ih.1 u hu
    omega

end

namespace Lexer

/-- A run of characters whose first one satisfies the test is not empty. -/
lemma runLength_pos {p : Char → Bool} {c : Char} (cs : Text) (h : p c = true) :
    0 < runLength p (c :: cs) := by
  rw [runLength, if_pos h]
  exact Nat.succ_pos _

/-- The characters that start a word may stand in it. -/
lemma isIdentifierChar_of_start {c : Char} (h : (c.isAlpha || c == '_') = true) :
    isIdentifierChar c = true := by
  simp only [Bool.or_eq_true, beq_iff_eq] at h
  rcases h with h | h
  · simp [isIdentifierChar, Char.isAlphanum, h]
  · simp [isIdentifierChar, h]

/-- A word has a character. -/
lemma wordLength_pos {c : Char} {cs : Text} (h : isIdentifierChar c = true) :
    0 < wordLength (c :: cs) := by
  have pos := runLength_pos cs h
  simp only [wordLength]
  split
  · exact Nat.succ_pos _
  · exact pos

/-- A number has a digit. -/
lemma numberLength_pos {c : Char} {cs : Text} (h : c.isDigit = true) :
    0 < numberLength (c :: cs) := by
  have pos := runLength_pos cs h
  simp only [numberLength]
  split
  · split
    · omega
    · exact pos
  · exact pos

/-- Every token has a character. -/
lemma measure_pos (c : Char) (cs : Text) : 0 < (measure c cs).2 := by
  unfold measure
  split
  · exact Nat.succ_pos _
  split
  next h => exact wordLength_pos (isIdentifierChar_of_start h)
  split
  next h => exact numberLength_pos h
  split
  · exact Nat.succ_pos _
  · unfold measureSymbol
    split <;> exact Nat.succ_pos _

/-- The tokens of a second part, which starts where the first part ends, are spaced from there. -/
lemma tokensFrom_spaced {text : Text} (fuel : Nat) {a b : Text} (e : text = a ++ b) :
    Spaced (text.isBoundary · = true) text.byteSize a.byteSize
      (tokensFrom fuel a.byteSize b) := by
  induction fuel generalizing a b with
  | zero =>
    refine .nil ?_
    rw [e, Text.byteSize_append]
    exact Nat.le_add_right _ _
  | succ fuel ih =>
    have split := List.take_append_drop (triviaLength b) b
    rw [tokensFrom]
    generalize b.take (triviaLength b) = gap at split ⊢
    generalize b.drop (triviaLength b) = rest at split ⊢
    subst split
    cases rest with
    | nil =>
      refine .nil ?_
      rw [e, Text.byteSize_append]
      exact Nat.le_add_right _ _
    | cons c cs =>
      have pos := measure_pos c cs
      rcases hm : measure c cs with ⟨kind, length⟩
      simp only [hm] at pos ⊢
      have split := List.take_append_drop length (c :: cs)
      have wide : 0 < Text.byteSize ((c :: cs).take length) := by
        obtain ⟨n, rfl⟩ := Nat.exists_eq_succ_of_ne_zero (Nat.ne_of_gt pos)
        rw [List.take_succ_cons, Text.byteSize_cons]
        exact Nat.add_pos_left c.utf8Size_pos _
      generalize (c :: cs).take length = word at split wide ⊢
      generalize (c :: cs).drop length = rest at split ⊢
      -- both ends of the token are the size of a first part of the text
      have start : text = (a ++ gap) ++ (c :: cs) := by rw [e, List.append_assoc]
      have stop : text = (a ++ gap ++ word) ++ rest := by
        rw [start, ← split, List.append_assoc _ word]
      have ih := ih stop
      simp only [Text.byteSize_append] at ih
      refine .cons (Nat.le_add_right _ _) (Nat.lt_add_of_pos_right wide) ?_ ?_ ih
      · have h := Text.isBoundary_append (a ++ gap) (c :: cs)
        rwa [← start, Text.byteSize_append] at h
      · have h := Text.isBoundary_append (a ++ gap ++ word) rest
        rwa [← stop, Text.byteSize_append, Text.byteSize_append] at h

end Lexer

/-- The tokens of a text are spaced, with both ends of each at boundaries of the text. -/
lemma tokenize_spaced (text : Text) :
    Spaced (text.isBoundary · = true) text.byteSize 0 (tokenize text) :=
  Lexer.tokensFrom_spaced text.length (a := []) rfl

end TypeqlAssist

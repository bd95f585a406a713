import TypeqlAssist.Completion.Result
import TypeqlAssist.Proofs.Completion.Words
import TypeqlAssist.Proofs.Token.Encoding

/-!
# The word that a candidate replaces

A variable or a label consists of the characters of words only, so a cursor in one stands behind a
word that starts with the token or before it. It starts before it where the token in front ends in
such characters and touches it: `replaceFrom_of_word` says where, and `replaceFrom_of_touching` is
a document in which a candidate replaces a neighbour.
-/

namespace TypeqlAssist

open TypeqlAssist.Tree Grammar Location

/-! ## The characters of words -/

namespace Lexer

/-- All characters of a run pass its test. -/
lemma take_runLength (p : Char → Bool) (cs : Text) :
    ∀ c ∈ cs.take (runLength p cs), p c = true := by
  induction cs with
  | nil => exact fun _ mem => absurd mem List.not_mem_nil
  | cons c cs ih =>
    rw [runLength]
    split
    next hc => exact List.forall_mem_cons.mpr ⟨hc, ih⟩
    next => exact fun _ mem => absurd mem List.not_mem_nil

/-- A label carries no exclamation mark. -/
lemma wordLength_of_label {cs : Text} (h : wordKind (cs.take (wordLength cs)) = .label) :
    wordLength cs = runLength isIdentifierChar cs := by
  simp only [wordLength] at h ⊢
  split at h
  next marked =>
    -- a word with the mark is one of two keywords
    simp only [Bool.and_eq_true, Bool.or_eq_true, beq_iff_eq, List.head?_drop] at marked
    rw [List.take_add_one, marked.1] at h
    rcases marked.2 with word | word <;> rw [word] at h <;> cases h
  next plain => exact if_neg plain

/-- A character of an identifier may be in a word. -/
lemma isWordChar_of_isIdentifierChar {c : Char} (h : isIdentifierChar c = true) :
    Completion.isWordChar c = true := by
  rw [Completion.isWordChar, h]
  rfl

/-- Variables and labels consist of the characters of words. -/
lemma measure_isWordChar {c : Char} {cs : Text}
    (h : (measure c cs).1 = .var ∨ (measure c cs).1 = .label) :
    ∀ d ∈ (c :: cs).take (measure c cs).2, Completion.isWordChar d = true := by
  unfold measure at h ⊢
  split at h
  next sign =>
    rw [if_pos sign, List.take_succ_cons]
    cases eq_of_beq sign
    refine List.forall_mem_cons.mpr ⟨rfl, fun d hd => ?_⟩
    exact isWordChar_of_isIdentifierChar (take_runLength _ _ d hd)
  next other =>
    split at h
    next letter =>
      rw [if_neg other, if_pos letter]
      have label := h.resolve_left (wordKind_isToken _).2
      rw [wordLength_of_label label]
      exact fun d hd => isWordChar_of_isIdentifierChar (take_runLength _ _ d hd)
    next =>
      split at h
      next => rcases h with h | h <;> cases h
      next =>
        split at h
        next => rcases h with h | h <;> cases h
        next =>
          rcases h with h | h
          · exact absurd h (measureSymbol_kind c cs).2
          · exact absurd h (measureSymbol_ne_label c cs)

end Lexer

namespace Completion

/-- Only ASCII characters may be in a word. -/
lemma onAscii_isWordChar : Scanner.OnAscii isWordChar :=
  Scanner.onAscii_isIdentifierChar.or (Scanner.onAscii_eq rfl)

/-- A word has as many bytes as characters. -/
lemma byteSize_of_isWordChar {w : Text} (h : ∀ c ∈ w, isWordChar c = true) :
    w.byteSize = w.length := by
  induction w with
  | nil => rfl
  | cons c w ih =>
    obtain ⟨first, rest⟩ := List.forall_mem_cons.mp h
    rw [Text.byteSize_cons, ih rest, onAscii_isWordChar c first, List.length_cons, Nat.add_comm]

/-- A text is split before the word at its end, which may be empty. -/
lemma exists_word (x : Text) : ∃ a v, x = a ++ v ∧ (∀ c ∈ v, isWordChar c = true) ∧
    ∀ c ∈ a.getLast?, isWordChar c = false := by
  refine ⟨(x.reverse.dropWhile isWordChar).reverse, (x.reverse.takeWhile isWordChar).reverse,
    ?_, ?_, ?_⟩
  · rw [← List.reverse_append, List.takeWhile_append_dropWhile, List.reverse_reverse]
  · intro c hc
    exact List.all_eq_true.mp List.all_takeWhile c (List.mem_reverse.mp hc)
  · intro c hc
    rw [List.getLast?_reverse] at hc
    have first := List.head?_dropWhile_not isWordChar x.reverse
    rw [hc] at first
    exact first

/-- The word at the end of a text is empty if the last character belongs to none. -/
lemma getLast?_word {a v : Text} (hv : ∀ c ∈ v, isWordChar c = true)
    (ha : ∀ c ∈ a.getLast?, isWordChar c = false) :
    (∀ c ∈ (a ++ v).getLast?, isWordChar c = false) ↔ v = [] := by
  constructor
  · intro last
    by_contra some
    rw [List.getLast?_append_of_ne_nil _ some, List.getLast?_eq_some_getLast some] at last
    have other := last _ rfl
    rw [hv _ (List.getLast_mem some)] at other
    cases other
  · rintro rfl
    rwa [List.append_nil]

/-- From behind, elements are taken down to the last one that fails the test. -/
lemma takeWhile_reverse_append {α : Type} {p : α → Bool} {xs ys : List α}
    (hy : ∀ y ∈ ys, p y = true) (hx : ∀ x ∈ xs.getLast?, p x = false) :
    (xs ++ ys).reverse.takeWhile p = ys.reverse := by
  have front : xs.reverse.takeWhile p = [] := by
    rcases List.eq_nil_or_concat xs with rfl | ⟨init, last, rfl⟩
    · rfl
    · rw [List.concat_eq_append] at hx ⊢
      rw [List.reverse_concat, List.takeWhile_cons, hx last List.getLast?_concat]
      rfl
  rw [List.reverse_append, List.takeWhile_append_of_pos, front, List.append_nil]
  exact fun y mem => hy y (List.mem_reverse.mp mem)

/-- The word at a cursor starts behind the last character that belongs to none. -/
lemma wordStart_append {a v : Text} (b : Text) (hv : ∀ c ∈ v, isWordChar c = true)
    (ha : ∀ c ∈ a.getLast?, isWordChar c = false) :
    wordStart (a ++ v ++ b) (Text.byteSize (a ++ v)) = a.byteSize := by
  have cursor : min (Text.byteSize (a ++ v)) (Text.byteSize (a ++ v ++ b)) =
      Text.byteSize (a ++ v) := by
    rw [Text.byteSize_append _ b]
    exact Nat.min_eq_left (Nat.le_add_right _ _)
  have word : (a ++ v).reverse.takeWhile isWordChar = v.reverse := takeWhile_reverse_append hv ha
  have size : Text.byteSize v.reverse = v.byteSize := by
    rw [byteSize_of_isWordChar hv, byteSize_of_isWordChar, List.length_reverse]
    exact fun c hc => hv c (List.mem_reverse.mp hc)
  simp only [wordStart, cursor, Text.takeBytes?_append, word, size]
  rw [Text.byteSize_append, Nat.add_sub_cancel]

/-- Behind some characters of words, the word starts with the one that ends before them. -/
lemma wordStart_within {a v w : Text} (b : Text) {pos : Nat} (hv : ∀ c ∈ v, isWordChar c = true)
    (ha : ∀ c ∈ a.getLast?, isWordChar c = false) (hw : ∀ c ∈ w, isWordChar c = true)
    (starts : Text.byteSize (a ++ v) ≤ pos) (stops : pos ≤ Text.byteSize (a ++ v) + w.byteSize) :
    wordStart (a ++ v ++ (w ++ b)) pos = a.byteSize := by
  obtain ⟨n, rfl⟩ := Nat.exists_eq_add_of_le starts
  have read (c) (hc : c ∈ w.take n) : isWordChar c = true := hw c (List.mem_of_mem_take hc)
  have size : Text.byteSize (w.take n) = n := by
    have short : n ≤ w.length := by
      rw [← byteSize_of_isWordChar hw]
      omega
    rw [byteSize_of_isWordChar read, List.length_take, Nat.min_eq_left short]
  have all : ∀ c ∈ v ++ w.take n, isWordChar c = true := List.forall_mem_append.mpr ⟨hv, read⟩
  have start := wordStart_append (w.drop n ++ b) all ha
  have text : a ++ (v ++ w.take n) ++ (w.drop n ++ b) = a ++ v ++ (w ++ b) := by
    rw [← List.append_assoc a, List.append_assoc (a ++ v), ← List.append_assoc (w.take n),
      List.take_append_drop]
  have cursor : Text.byteSize (a ++ (v ++ w.take n)) = Text.byteSize (a ++ v) + n := by
    rw [← List.append_assoc, Text.byteSize_append, size]
  rwa [text, cursor] at start

/-- What is replaced starts with the word before the cursor. -/
lemma replaceFrom_eq {root : Tree} {text : Text} {pos : Nat} {r : Result}
    (h : complete root text pos = some r) :
    r.replaceFrom = wordStart text (min pos text.byteSize) := by
  rw [complete] at h
  split at h
  · cases h
  · dsimp only at h
    split at h
    · cases h
    · cases h
      rfl

/-- A cursor in a node of the kind of a token is in that token. -/
lemma token_of_resolve {text : Text} {pos : Nat}
    (hk : ((parseTree text).resolve pos).focus.kind.isToken = true) :
    ∃ t ∈ tokenize text, t = ((parseTree text).resolve pos).focus.token ∧
      t.start < min pos text.byteSize ∧ min pos text.byteSize ≤ t.stop := by
  rcases (resolve_isAt (orderly_of_text text) pos).2 with here | root
  · have mem := here.reached.mem_preorder
    have leaf := isLeaf_of_isToken mem hk
    refine ⟨_, ?_, rfl, here.starts, here.stops⟩
    rcases List.mem_cons.mp mem with e | below
    · rw [e] at hk
      cases hk
    · rw [← tokensOf_text]
      exact List.mem_map_of_mem (List.mem_filter.mpr ⟨below, leaf⟩)
  · rw [root] at hk
    cases hk

/--
Only characters of words stand between two offsets of a text, and before the first one stands
none.
-/
inductive WordBetween (text : Text) : Nat → Nat → Prop where
  | intro (a v b : Text) :
    text = a ++ v ++ b →
    (∀ c ∈ v, isWordChar c = true) →
    (∀ c ∈ a.getLast?, isWordChar c = false) →
    WordBetween text a.byteSize (Text.byteSize (a ++ v))

/-- The word that ends at an offset is empty if the character before it belongs to none. -/
lemma WordBetween.eq_iff {text : Text} {i j : Nat} (h : WordBetween text i j) :
    i = j ↔ ∀ x y, text = x ++ y → x.byteSize = j → ∀ c ∈ x.getLast?, isWordChar c = false := by
  cases h with
  | intro a v b e hv ha =>
    have empty : a.byteSize = Text.byteSize (a ++ v) ↔ v = [] := by
      rw [Text.byteSize_append, byteSize_of_isWordChar hv, ← List.length_eq_zero_iff]
      omega
    rw [empty, ← getLast?_word hv ha]
    constructor
    · intro last x y e' size
      have same : some x = some (a ++ v) := by
        rw [← Text.takeBytes?_append x y, ← Text.takeBytes?_append (a ++ v) b, size, ← e, ← e']
      cases same
      exact last
    · intro last
      exact last (a ++ v) b e rfl

/--
With the cursor in a variable or a label, a candidate replaces the token up to the cursor, and in
front of it the word that ends where the token starts. So the token is what is replaced exactly
where no character of a word stands before it.
-/
theorem replaceFrom_of_word (text : Text) (pos : Nat) (r : Result)
    (hk : ((parseTree text).resolve pos).focus.kind = .var ∨
      ((parseTree text).resolve pos).focus.kind = .label)
    (h : complete (parseTree text) text pos = some r) :
    WordBetween text r.replaceFrom ((parseTree text).resolve pos).focus.start ∧
    (r.replaceFrom = ((parseTree text).resolve pos).focus.start ↔
      ∀ x y, text = x ++ y → x.byteSize = ((parseTree text).resolve pos).focus.start →
        ∀ c ∈ x.getLast?, isWordChar c = false) := by
  have isToken : ((parseTree text).resolve pos).focus.kind.isToken = true := by
    rcases hk with e | e <;> rw [e] <;> rfl
  obtain ⟨t, ht, token, starts, stops⟩ := token_of_resolve isToken
  obtain ⟨x, c, cs, e, measured⟩ := tokenize_measured ht
  have same := measured.symm.trans token
  have kind : (Lexer.measure c cs).1 = ((parseTree text).resolve pos).focus.kind :=
    congrArg Token.kind same
  have start : x.byteSize = ((parseTree text).resolve pos).focus.start :=
    congrArg Token.start same
  have word := Lexer.measure_isWordChar (kind ▸ hk)
  obtain ⟨a, v, rfl, hv, ha⟩ := exists_word x
  rw [measured] at starts stops
  have replaced : r.replaceFrom = a.byteSize := by
    have here := wordStart_within ((c :: cs).drop (Lexer.measure c cs).2) hv ha word
      (Nat.le_of_lt starts) stops
    rw [List.take_append_drop, ← e] at here
    rw [replaceFrom_eq h, here]
  have between : WordBetween text r.replaceFrom ((parseTree text).resolve pos).focus.start := by
    rw [replaced, ← start]
    exact .intro a v (c :: cs) e hv ha
  exact ⟨between, between.eq_iff⟩

/-- Inside the name of a type that a blank separates from its keyword. -/
theorem replaceFrom_of_label :
    ((parseTree "match $x isa person".toList).resolve 16).focus.kind = .label ∧
    ((parseTree "match $x isa person".toList).resolve 16).focus.start = 13 ∧
    ∃ r, complete (parseTree "match $x isa person".toList) "match $x isa person".toList 16 =
        some r ∧
      WordBetween "match $x isa person".toList r.replaceFrom 13 := by
  have label : ((parseTree "match $x isa person".toList).resolve 16).focus.kind = .label := by
    decide +kernel
  have start : ((parseTree "match $x isa person".toList).resolve 16).focus.start = 13 := by
    decide +kernel
  obtain ⟨r, h⟩ : ∃ r, complete (parseTree "match $x isa person".toList)
      "match $x isa person".toList 16 = some r := Option.isSome_iff_exists.mp (by decide +kernel)
  obtain ⟨between, _⟩ := replaceFrom_of_word "match $x isa person".toList 16 r (.inr label) h
  rw [start] at between
  exact ⟨label, start, r, h, between⟩

/-- A variable touches the label before it, and a candidate replaces both. -/
theorem replaceFrom_of_touching :
    ((parseTree "match $x has name$n".toList).resolve 19).focus.kind = .var ∧
    ((parseTree "match $x has name$n".toList).resolve 19).focus.start = 17 ∧
    (complete (parseTree "match $x has name$n".toList) "match $x has name$n".toList 19).map
      (·.replaceFrom) = some 13 := by
  decide +kernel

end Completion

end TypeqlAssist

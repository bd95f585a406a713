import TypeqlAssist.Proofs.Token.Encoding

/-!
# Bytes and characters give the same tokens

The scanner looks at bytes and never decodes them, but each of its steps ends where a character
ends. So on the bytes of a text it finds the tokens of the text (`tokenize_bytes`). The step that
reads a first token is `scan_bytes`; what it needs of each branch is one lemma here.
-/

namespace TypeqlAssist

namespace Scanner

open Lexer

variable {p : Char → Bool} {b : UInt8} {c : Char}

/-! ## Blanks and comments -/

/-- A comment runs over the bytes of longer characters. -/
lemma skipComment_wide {es : List UInt8} (wide : ∀ e ∈ es, 0x80 ≤ e) (bs : List UInt8) :
    skipComment (es ++ bs) = es.length + skipComment bs := by
  induction es with
  | nil => exact (Nat.zero_add _).symm
  | cons e es ih =>
    obtain ⟨high, wide⟩ := List.forall_mem_cons.mp wide
    rw [List.cons_append, skipComment, is, ascii_of_le _ high, if_neg Bool.false_ne_true, ih wide,
      List.length_cons]
    omega

mutual

/-- Trivia in bytes are the trivia in characters. -/
lemma skip_bytes : ∀ text : Text,
    skip text.bytes = Text.byteSize (text.take (triviaLength text))
  | [] => rfl
  | c :: cs => by
    have blank := skip_bytes cs
    have comment := skipComment_bytes cs
    rw [bytes_cons, skip, ascii_lead onAscii_isBlank, is_lead rfl, triviaLength]
    split
    next hc =>
      have size := onAscii_isBlank c hc
      rw [trail_of_ascii size, List.nil_append, blank, List.take_succ_cons, Text.byteSize_cons,
        size, Nat.add_comm]
    next =>
    split
    next hc =>
      cases eq_of_beq hc
      rw [trail_of_ascii rfl, List.nil_append, comment, List.take_succ_cons, Text.byteSize_cons,
        Nat.add_comm]
      rfl
    next => rfl

/-- In a comment, trivia in bytes are the trivia in characters. -/
lemma skipComment_bytes : ∀ text : Text,
    skipComment text.bytes = Text.byteSize (text.take (commentLength text))
  | [] => rfl
  | c :: cs => by
    have blank := skip_bytes cs
    have comment := skipComment_bytes cs
    have width := length_trail c
    rw [bytes_cons, skipComment, is_lead rfl, commentLength]
    split
    next hc =>
      cases eq_of_beq hc
      rw [trail_of_ascii rfl, List.nil_append, blank, List.take_succ_cons, Text.byteSize_cons,
        Nat.add_comm]
      rfl
    next =>
      rw [skipComment_wide (fun e => le_of_mem_trail), comment, List.take_succ_cons,
        Text.byteSize_cons]
      omega

end

/-! ## Runs, words and numbers -/

/-- A run has as many bytes as characters. -/
lemma run_bytes (hp : OnAscii p) (text : Text) : run (ascii p) text.bytes = runLength p text := by
  induction text with
  | nil => rfl
  | cons c cs ih =>
    rw [bytes_cons, run, List.takeWhile_cons, ascii_lead hp, runLength]
    cases hc : p c with
    | true =>
      rw [trail_of_ascii (hp c hc), List.nil_append]
      exact congrArg Nat.succ ih
    | false => rfl

/-- The characters of a run are one byte each. -/
lemma byteSize_take_run (hp : OnAscii p) {n : Nat} {text : Text} (h : n ≤ runLength p text) :
    Text.byteSize (text.take n) = n := by
  induction text generalizing n with
  | nil =>
    rw [Nat.le_zero.mp h]
    rfl
  | cons c cs ih =>
    cases n with
    | zero => rfl
    | succ n =>
      rw [runLength] at h
      split at h
      next hc =>
        rw [List.take_succ_cons, Text.byteSize_cons, hp c hc, ih (Nat.le_of_succ_le_succ h),
          Nat.add_comm]
      next => cases h

/-- Where a number of characters is a number of bytes, so it stays with one more ASCII character. -/
lemma byteSize_take_succ (hp : OnAscii p) {n : Nat} {text : Text}
    (size : Text.byteSize (text.take n) = n) (next : (text.drop n).head?.any p = true) :
    Text.byteSize (text.take (n + 1)) = n + 1 := by
  cases rest : text.drop n with
  | nil =>
    rw [rest] at next
    cases next
  | cons c cs =>
    rw [rest] at next
    have more : text.take (n + 1) = text.take n ++ [c] := by
      rw [List.take_add, rest]
      rfl
    rw [more, Text.byteSize_append, size, Text.byteSize_cons, hp c next]
    rfl

/-- The byte where a number of characters ends. -/
lemma getElem?_bytes (hp : OnAscii p) {n : Nat} {text : Text}
    (size : Text.byteSize (text.take n) = n) :
    text.bytes[n]?.any (ascii p) = (text.drop n).head?.any p := by
  have behind := drop_bytes n text
  rw [size] at behind
  rw [← head?_bytes hp, ← behind, List.head?_drop]

/-- Texts with the same bytes are the same. -/
lemma bytes_inj {a b : Text} : a.bytes = b.bytes ↔ a = b := by
  refine ⟨fun h => ?_, congrArg _⟩
  have decoded := fromUTF8?_bytes a
  rw [h, fromUTF8?_bytes] at decoded
  exact (String.ofList_inj.mp (Option.some.inj decoded)).symm

/-- Bytes are compared as texts are. -/
lemma bytes_beq (a b : Text) : (a.bytes == b.bytes) = (a == b) := by
  rw [Bool.eq_iff_iff, beq_iff_eq, beq_iff_eq]
  exact bytes_inj

/-- The characters of a word are one byte each. -/
lemma byteSize_take_word (text : Text) :
    Text.byteSize (text.take (wordLength text)) = wordLength text := by
  have plain := byteSize_take_run onAscii_isIdentifierChar (Nat.le_refl (runLength _ text))
  simp only [wordLength]
  split
  next mark =>
    rw [Bool.and_eq_true, beq_iff_eq] at mark
    refine byteSize_take_succ (onAscii_eq (d := '!') rfl) plain ?_
    rw [mark.1]
    rfl
  next => exact plain

/-- A word in bytes is the word in characters. -/
lemma word_bytes (text : Text) :
    word text.bytes = (wordKind (text.take (wordLength text)), wordLength text) := by
  have plain := byteSize_take_run onAscii_isIdentifierChar (Nat.le_refl (runLength _ text))
  have spelled := take_bytes (runLength isIdentifierChar text) text
  have bang : text.bytes[runLength isIdentifierChar text]?.any (is '!') =
      ((text.drop (runLength isIdentifierChar text)).head? == some '!') := by
    rw [is, getElem?_bytes (onAscii_eq rfl) plain]
    cases (text.drop (runLength isIdentifierChar text)).head? <;> rfl
  rw [plain] at spelled
  have length : (word text.bytes).2 = wordLength text := by
    simp only [word, wordLength]
    rw [run_bytes onAscii_isIdentifierChar, bang, spelled, bytes_beq, bytes_beq]
  have whole := take_bytes (wordLength text) text
  rw [byteSize_take_word] at whole
  refine Prod.ext ?_ length
  change (Kind.keyword? ((String.fromUTF8? (text.bytes.take (word text.bytes).2).toByteArray).getD
    "")).getD .label = _
  rw [length, whole, fromUTF8?_bytes]
  rfl

/-- The size of some first characters is put together from two parts. -/
lemma byteSize_take_add (n m : Nat) (text : Text) :
    Text.byteSize (text.take (n + m)) =
      Text.byteSize (text.take n) + Text.byteSize ((text.drop n).take m) := by
  rw [List.take_add, Text.byteSize_append]

/-- A number told by the two characters behind its digits. -/
lemma numberLength_eq {whole : Nat} {text : Text} (h : runLength Char.isDigit text = whole) :
    numberLength text =
      if (text.drop whole).head?.any (· == '.') &&
          (text.drop (whole + 1)).head?.any Char.isDigit then
        whole + 1 + runLength Char.isDigit (text.drop (whole + 1))
      else whole := by
  simp only [numberLength, h]
  rw [← List.drop_drop]
  rcases text.drop whole with _ | ⟨x, _ | ⟨d, ds⟩⟩
  · rfl
  · simp
  · by_cases point : x = '.'
    · cases digit : d.isDigit with
      | true =>
        simp only [point, digit, List.head?_cons, Option.any_some, beq_self_eq_true,
          Bool.and_self, if_true, List.drop_succ_cons, List.drop_zero, runLength]
        omega
      | false => simp [point, digit]
    · simp [point]

/-- The characters of a number are one byte each. -/
lemma number_bytes (text : Text) :
    number text.bytes = numberLength text ∧
      Text.byteSize (text.take (numberLength text)) = numberLength text := by
  obtain ⟨whole, run⟩ : ∃ whole, runLength Char.isDigit text = whole := ⟨_, rfl⟩
  have size := byteSize_take_run onAscii_isDigit (Nat.le_of_eq run.symm)
  have point := getElem?_bytes (onAscii_eq (d := '.') rfl) size
  rw [number, run_bytes onAscii_isDigit, numberLength_eq run, run, is, point]
  cases dot : (text.drop whole).head?.any (· == '.') with
  | false => exact ⟨rfl, size⟩
  | true =>
    have more := byteSize_take_succ (onAscii_eq rfl) size dot
    have behind := drop_bytes (whole + 1) text
    rw [more] at behind
    rw [getElem?_bytes onAscii_isDigit more, behind, run_bytes onAscii_isDigit]
    refine ⟨rfl, ?_⟩
    split
    · rw [byteSize_take_add, more, byteSize_take_run onAscii_isDigit (Nat.le_refl _)]
    · exact size

/-! ## Strings -/

/-- A string goes on over a byte that does not end it. -/
lemma string_cons {quote : Char} (escape : is '\\' b = false) (newline : is '\n' b = false)
    (closed : is quote b = false) (bs : List UInt8) :
    string quote (b :: bs) = string quote bs + 1 := by
  cases bs with
  | nil =>
    change (if is '\\' b then 2 else if is '\n' b then 0 else 1) = 1
    rw [escape, newline]
    rfl
  | cons d bs => rw [string, escape, newline, closed]; rfl

/-- A string runs over the bytes of longer characters. -/
lemma string_wide (quote : Char) {es : List UInt8} (wide : ∀ e ∈ es, 0x80 ≤ e) (bs : List UInt8) :
    string quote (es ++ bs) = es.length + string quote bs := by
  induction es with
  | nil => exact (Nat.zero_add _).symm
  | cons e es ih =>
    obtain ⟨high, wide⟩ := List.forall_mem_cons.mp wide
    have other (c : Char) : is c e = false := ascii_of_le _ high
    rw [List.cons_append, string_cons (other _) (other _) (other _), ih wide, List.length_cons]
    omega

/-- A string runs over a character that does not end it. -/
lemma string_lead {quote : Char} (hq : quote.utf8Size = 1) (escape : ¬(c == '\\') = true)
    (newline : ¬(c == '\n') = true) (closed : ¬(c == quote) = true) (bs : List UInt8) :
    string quote (lead c :: (trail c ++ bs)) = c.utf8Size + string quote bs := by
  have width := length_trail c
  rw [string_cons, string_wide quote fun e => le_of_mem_trail]
  · omega
  · rw [is_lead rfl, Bool.eq_false_iff.mpr escape]
  · rw [is_lead rfl, Bool.eq_false_iff.mpr newline]
  · rw [is_lead hq, Bool.eq_false_iff.mpr closed]

/-- A string has the bytes of its characters, but for an escape at the end of the text. -/
lemma string_bytes {quote : Char} (hq : quote.utf8Size = 1) (text : Text) :
    min (string quote text.bytes) text.byteSize =
      Text.byteSize (text.take (stringLength quote text)) := by
  -- by the characters: no byte of a longer one is a quote, a backslash or a line feed
  fun_induction stringLength quote text with
  | case1 => rfl
  | case2 c newline =>
    cases eq_of_beq newline
    rfl
  | case3 c newline =>
    rw [bytes_cons]
    by_cases size : c.utf8Size = 1
    · rw [trail_of_ascii size]
      change min (if is '\\' (lead c) then 2 else if is '\n' (lead c) then 0 else 1)
        (c.utf8Size + 0) = c.utf8Size + 0
      rw [is_lead (d := '\n') rfl, if_neg newline, size]
      split <;> rfl
    · have other {d : Char} (hd : d.utf8Size = 1) : ¬(c == d) = true := fun e =>
        size (onAscii_eq hd c e)
      rw [string_lead hq (other rfl) newline (other hq)]
      exact Nat.min_self _
  | case4 c d cs escape ih =>
    cases eq_of_beq escape
    have width := length_trail d
    rw [bytes_cons, trail_of_ascii rfl, List.nil_append, bytes_cons, string, if_pos (by rfl),
      string_wide quote fun e => le_of_mem_trail, List.take_succ_cons, List.take_succ_cons]
    simp only [Text.byteSize_cons] at ih ⊢
    have one : '\\'.utf8Size = 1 := rfl
    omega
  | case5 c d cs escape newline =>
    cases eq_of_beq newline
    rw [bytes_cons, trail_of_ascii rfl, List.nil_append, bytes_cons, string, is_lead rfl,
      if_neg escape, is_lead rfl, if_pos newline]
    exact Nat.zero_min _
  | case6 c d cs escape newline closed =>
    cases eq_of_beq closed
    rw [bytes_cons, trail_of_ascii hq, List.nil_append, bytes_cons, string, is_lead rfl,
      if_neg escape, is_lead rfl, if_neg newline, is_lead hq, if_pos closed, List.take_succ_cons]
    simp only [Text.byteSize_cons, List.take_zero, Text.byteSize_nil, hq]
    omega
  | case7 c d cs escape newline closed ih =>
    rw [bytes_cons, string_lead hq escape newline closed, List.take_succ_cons, Text.byteSize_cons c,
      Text.byteSize_cons c, ← ih]
    omega

/-! ## Symbols -/

/-- A character that is a symbol is an ASCII character. -/
lemma symbolKind_wide (h : c.utf8Size ≠ 1) : symbolKind c = .error := by
  unfold symbolKind
  split
  all_goals first | rfl | exact absurd rfl h

/-- The first byte of a character tells the kind of the character. -/
lemma symbolKind_lead (c : Char) : symbolKind (Char.ofUInt8 (lead c)) = symbolKind c := by
  by_cases size : c.utf8Size = 1
  · rw [(lead_of_ascii size).2]
  · rw [symbolKind_wide size]
    refine symbolKind_wide fun ascii => ?_
    have low := UInt32.le_iff_toNat_le.mp (Char.utf8Size_eq_one_iff.mp ascii)
    have high := UInt8.le_iff_toNat_le.mp (le_lead size)
    have code : (Char.ofUInt8 (lead c)).val.toNat = (lead c).toNat := UInt8.toNat_toUInt32 _
    rw [code] at low
    exact absurd low (Nat.not_le.mpr high)

/-- The next byte is an ASCII character if the next character is. -/
lemma head?_is {d : Char} (h : d.utf8Size = 1) (cs : Text) :
    cs.bytes.head?.any (is d) = (cs.head? == some d) := by
  rw [is, head?_bytes (onAscii_eq h)]
  cases cs <;> rfl

/-- Behind an ASCII character, a symbol in bytes is the symbol in characters. -/
lemma symbol_ascii (size : c.utf8Size = 1) (cs : Text) :
    symbol (lead c) cs.bytes = measureSymbol c cs := by
  simp only [symbol, is_lead (d := '=') rfl, is_lead (d := '-') rfl, is_lead (d := '<') rfl,
    is_lead (d := '>') rfl, is_lead (d := '!') rfl, head?_is (d := '=') rfl,
    head?_is (d := '>') rfl, symbolKind_lead, widthOf_lead, size]
  fun_cases measureSymbol c cs with
  | case6 c assign less greater bang arrow =>
    by_cases e : c = '='
    · rw [beq_eq_false_iff_ne.mpr (assign e), e]
      rfl
    by_cases e : c = '<'
    · rw [beq_eq_false_iff_ne.mpr (less e), e]
      rfl
    by_cases e : c = '>'
    · rw [beq_eq_false_iff_ne.mpr (greater e), e]
      rfl
    by_cases e : c = '!'
    · rw [beq_eq_false_iff_ne.mpr (bang e), e]
      rfl
    by_cases e : c = '-'
    · rw [beq_eq_false_iff_ne.mpr (arrow e), e]
      rfl
    simp [*]
  | _ next =>
    rw [next]
    rfl

/-- Behind the first character, a symbol has a byte for each character. -/
lemma byteSize_take_symbol (c : Char) (cs : Text) :
    Text.byteSize ((c :: cs).take (measureSymbol c cs).2) + 1 =
      c.utf8Size + (measureSymbol c cs).2 := by
  rcases measureSymbol_cases c cs with one | ⟨d, ds, rfl, _, size, two⟩
  · rw [one]
    rfl
  · rw [two, List.take_succ_cons, List.take_succ_cons, Text.byteSize_cons, Text.byteSize_cons, size]
    rfl

/-- A symbol in bytes is the symbol in characters, with its size in bytes. -/
lemma symbol_lead (c : Char) (cs : Text) :
    symbol (lead c) (trail c ++ cs.bytes) =
      ((measureSymbol c cs).1, Text.byteSize ((c :: cs).take (measureSymbol c cs).2)) := by
  by_cases size : c.utf8Size = 1
  · have length := byteSize_take_symbol c cs
    rw [trail_of_ascii size, List.nil_append, symbol_ascii size]
    exact Prod.ext rfl (by omega)
  · have other (d : Char) : is d (lead c) = false := ascii_of_le _ (le_lead size)
    have alone : measureSymbol c cs = (symbolKind c, 1) :=
      (measureSymbol_cases c cs).resolve_right fun ⟨_, _, _, ascii, _⟩ => size ascii
    rw [alone]
    simp only [symbol, other, symbolKind_lead, widthOf_lead]
    rfl

/-! ## Tokens -/

/-- A string has the bytes of its characters, and its quote. -/
lemma scan_string {quote : Char} (hq : quote.utf8Size = 1) (cs : Text) :
    min (string quote (trail quote ++ cs.bytes) + 1) ((trail quote ++ cs.bytes).length + 1) =
      Text.byteSize ((quote :: cs).take (stringLength quote cs + 1)) := by
  have length := string_bytes hq cs
  rw [trail_of_ascii hq, List.nil_append, length_bytes, List.take_succ_cons, Text.byteSize_cons, hq]
  omega

/-- The first token of the bytes is the first token of the text. -/
lemma scan_bytes (c : Char) (cs : Text) :
    scan (lead c) (trail c ++ cs.bytes) =
      ((measure c cs).1, Text.byteSize ((c :: cs).take (measure c cs).2)) := by
  unfold scan Lexer.measure
  rw [is_lead rfl, ascii_lead onAscii_isAlpha, is_lead rfl, ascii_lead onAscii_isDigit, is_lead rfl,
    is_lead rfl]
  split
  next sign =>
    cases eq_of_beq sign
    have size := byteSize_take_run onAscii_isIdentifierChar (Nat.le_refl (runLength _ cs))
    rw [trail_of_ascii rfl, List.nil_append, run_bytes onAscii_isIdentifierChar,
      List.take_succ_cons, Text.byteSize_cons, size, Nat.add_comm]
    rfl
  split
  next letter => rw [← bytes_cons, word_bytes, byteSize_take_word]
  split
  next digit =>
    obtain ⟨length, size⟩ := number_bytes (c :: cs)
    rw [← bytes_cons, length, size]
  split
  next quote =>
    cases eq_of_beq quote
    exact congrArg _ (scan_string rfl cs)
  split
  next quote =>
    cases eq_of_beq quote
    exact congrArg _ (scan_string rfl cs)
  next double single =>
    rw [Bool.eq_false_iff.mpr double, Bool.eq_false_iff.mpr single]
    exact symbol_lead c cs

/-- Where only trivia are left, there are no more tokens. -/
lemma tokensFrom_nil {bs : List UInt8} (h : bs.drop (skip bs) = []) (pos : Nat) :
    tokensFrom pos bs = [] := by
  rw [tokensFrom]
  split
  next => rfl
  next e =>
    rw [h] at e
    cases e

/-- Behind trivia comes one token, and then those behind it. -/
lemma tokensFrom_cons {bs rest : List UInt8} (h : bs.drop (skip bs) = b :: rest) (pos : Nat) :
    tokensFrom pos bs =
      ⟨(scan b rest).1, pos + skip bs, pos + skip bs + (scan b rest).2⟩ ::
        tokensFrom (pos + skip bs + (scan b rest).2) ((b :: rest).drop (scan b rest).2) := by
  rw [tokensFrom]
  split
  next e =>
    rw [h] at e
    cases e
  next e =>
    rw [h] at e
    cases e
    rfl

/-- From any position on, the scanner finds the tokens of the text that stands there. -/
lemma tokensFrom_bytes (pos : Nat) (text : Text) :
    tokensFrom pos text.bytes = (TypeqlAssist.tokenize text).map (Token.shift pos) := by
  induction text using gap_induction generalizing pos with
  | trivia text none =>
    have behind := drop_bytes (triviaLength text) text
    rw [← skip_bytes, none, List.drop_length] at behind
    rw [tokenize_trivia none, tokensFrom_nil behind]
    rfl
  | token gap c cs length ih =>
    have gapped := skip_bytes (gap ++ c :: cs)
    have behind := drop_bytes (triviaLength (gap ++ c :: cs)) (gap ++ c :: cs)
    rw [← skip_bytes, length, List.drop_left, bytes_cons] at behind
    rw [length, List.take_left] at gapped
    rw [tokensFrom_cons behind, tokenize_cons length, scan_bytes, gapped, ← bytes_cons,
      drop_bytes, ih, List.map_cons, map_shift_shift]
    simp only [Token.shift, Nat.add_assoc]

/-- On the bytes of a text, the scanner finds the tokens of the text. -/
theorem tokenize_bytes (text : Text) : tokenize text.bytes = TypeqlAssist.tokenize text := by
  rw [tokenize, tokensFrom_bytes, map_shift_zero]

end Scanner

end TypeqlAssist

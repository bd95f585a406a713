import TypeqlAssist.Proofs.Token.Joining
import TypeqlAssist.Token.Scanner

/-!
# The bytes of characters

An ASCII character is one byte, its code. A longer character is a leading byte that tells its width
and some trailing ones, and none of them is an ASCII character. So a test of ASCII characters gives
the same on a character and on its leading byte (`ascii_lead`), and fails on the trailing ones.
-/

namespace TypeqlAssist

namespace Scanner

open Lexer

variable {p : Char → Bool} {b : UInt8} {c : Char}

/-! ## One character -/

/-- The first byte of a character. -/
def lead (c : Char) : UInt8 :=
  (String.utf8EncodeChar c).headD 0

/-- The bytes of a character behind the first one. -/
def trail (c : Char) : List UInt8 :=
  (String.utf8EncodeChar c).tail

/-- A character has a first byte. -/
lemma utf8EncodeChar_eq (c : Char) : String.utf8EncodeChar c = lead c :: trail c := by
  unfold lead trail String.utf8EncodeChar
  dsimp only
  repeat' split
  all_goals rfl

/-- A character has as many bytes as its size says. -/
lemma length_trail (c : Char) : (trail c).length + 1 = c.utf8Size := by
  rw [← String.length_utf8EncodeChar, utf8EncodeChar_eq, List.length_cons]

/-- An ASCII character is a single byte. -/
lemma trail_of_ascii (h : c.utf8Size = 1) : trail c = [] :=
  List.eq_nil_of_length_eq_zero (Nat.succ_inj.mp ((length_trail c).trans h))

/-- The first byte of a character lies in a range that tells the number of bytes. -/
lemma lead_range (c : Char) :
    (c.utf8Size = 1 ∧ (lead c).toNat = c.toNat ∧ c.toNat < 0x80) ∨
      (c.utf8Size = 2 ∧ 0xC0 ≤ (lead c).toNat ∧ (lead c).toNat < 0xE0) ∨
      (c.utf8Size = 3 ∧ 0xE0 ≤ (lead c).toNat ∧ (lead c).toNat < 0xF0) ∨
      (c.utf8Size = 4 ∧ 0xF0 ≤ (lead c).toNat) := by
  rw [← length_trail]
  unfold lead trail String.utf8EncodeChar
  dsimp only
  split
  next low =>
    refine .inl ⟨rfl, ?_, Nat.lt_succ_of_le low⟩
    rw [List.headD_cons, UInt8.toNat_ofNat']
    exact Nat.mod_eq_of_lt (by omega)
  split
  next =>
    refine .inr (.inl ⟨rfl, ?_⟩)
    rw [List.headD_cons, UInt8.toNat_ofNat']
    omega
  split
  next =>
    refine .inr (.inr (.inl ⟨rfl, ?_⟩))
    rw [List.headD_cons, UInt8.toNat_ofNat']
    omega
  next =>
    refine .inr (.inr (.inr ⟨rfl, ?_⟩))
    rw [List.headD_cons, UInt8.toNat_ofNat']
    omega

/-- The bytes behind the first one are no ASCII characters. -/
lemma le_of_mem_trail (h : b ∈ trail c) : 0x80 ≤ b := by
  suffices all : ∀ b ∈ trail c, 0x80 ≤ b.toNat from UInt8.le_iff_toNat_le.mpr (all b h)
  unfold trail String.utf8EncodeChar
  dsimp only
  split
  next => exact nofun
  repeat' split
  all_goals
    simp only [List.tail_cons, List.mem_cons, List.not_mem_nil, or_false, forall_eq_or_imp,
      forall_eq, UInt8.toNat_ofNat']
    omega

/-- The first byte tells the size of a character. -/
lemma widthOf_lead (c : Char) : widthOf (lead c) = c.utf8Size := by
  have range := lead_range c
  simp only [widthOf, UInt8.le_iff_toNat_le, UInt8.reduceToNat]
  repeat' split
  all_goals omega

/-- The byte of an ASCII character is its code. -/
lemma lead_of_ascii (h : c.utf8Size = 1) : lead c < 0x80 ∧ Char.ofUInt8 (lead c) = c := by
  have range := lead_range c
  have code : (lead c).toNat = c.toNat ∧ c.toNat < 0x80 := by omega
  refine ⟨UInt8.lt_iff_toNat_lt.mpr (code.1 ▸ code.2), Char.toNat_inj.mp code.1⟩

/-- The first byte of any other character is not in ASCII. -/
lemma le_lead (h : c.utf8Size ≠ 1) : 0x80 ≤ lead c := by
  have range := lead_range c
  refine UInt8.le_iff_toNat_le.mpr ?_
  change 0x80 ≤ (lead c).toNat
  omega

/-! ## Tests of ASCII characters -/

/-- Only ASCII characters pass the test. -/
def OnAscii (p : Char → Bool) : Prop :=
  ∀ c, p c = true → c.utf8Size = 1

/-- A test that only small codes pass is one of ASCII characters. -/
lemma onAscii_of_lt (h : ∀ c, p c = true → c.toNat < 0x80) : OnAscii p := fun c hc =>
  Char.utf8Size_eq_one_iff.mpr (UInt32.le_iff_toNat_le.mpr (Nat.le_of_lt_succ (h c hc)))

/-- Digits are ASCII characters. -/
lemma onAscii_isDigit : OnAscii Char.isDigit := by
  refine onAscii_of_lt fun c h => ?_
  have below : c.val.toNat ≤ 57 := of_decide_eq_true (Bool.and_eq_true_iff.mp h).2
  exact Nat.lt_of_le_of_lt below (by decide)

/-- Letters are ASCII characters. -/
lemma onAscii_isAlpha : OnAscii Char.isAlpha := by
  refine onAscii_of_lt fun c h => ?_
  rcases Bool.or_eq_true_iff.mp h with upper | lower
  · have below : c.val.toNat ≤ 90 := (of_decide_eq_true upper).2
    exact Nat.lt_of_le_of_lt below (by decide)
  · have below : c.val.toNat ≤ 122 := of_decide_eq_true (Bool.and_eq_true_iff.mp lower).2
    exact Nat.lt_of_le_of_lt below (by decide)

/-- An ASCII character is equal to ASCII characters only. -/
lemma onAscii_eq {d : Char} (h : d.utf8Size = 1) : OnAscii (· == d) := fun c hc => by
  cases eq_of_beq hc
  exact h

/-- Either of two tests of ASCII characters is one. -/
lemma OnAscii.or {q : Char → Bool} (hp : OnAscii p) (hq : OnAscii q) :
    OnAscii fun c => p c || q c := fun c h =>
  (Bool.or_eq_true_iff.mp h).elim (hp c) (hq c)

/-- What may stand in a word are ASCII characters. -/
lemma onAscii_isIdentifierChar : OnAscii isIdentifierChar :=
  ((onAscii_isAlpha.or onAscii_isDigit).or (onAscii_eq rfl)).or (onAscii_eq rfl)

/-- The blanks between tokens are ASCII characters. -/
lemma onAscii_isBlank : OnAscii isBlank :=
  ((((onAscii_eq rfl).or (onAscii_eq rfl)).or (onAscii_eq rfl)).or (onAscii_eq rfl)).or
    (onAscii_eq rfl)

/-- No byte of a longer character passes a test of ASCII characters. -/
lemma ascii_of_le (p : Char → Bool) (h : 0x80 ≤ b) : ascii p b = false := by
  rw [ascii, decide_eq_false (UInt8.not_lt.mpr h), Bool.false_and]

/-- The first byte of a character passes a test of ASCII characters as the character does. -/
lemma ascii_lead (hp : OnAscii p) (c : Char) : ascii p (lead c) = p c := by
  by_cases size : c.utf8Size = 1
  · obtain ⟨low, same⟩ := lead_of_ascii size
    rw [ascii, decide_eq_true low, same, Bool.true_and]
  · rw [ascii_of_le p (le_lead size)]
    exact (Bool.eq_false_iff.mpr fun pass => size (hp c pass)).symm

/-- The first byte of a character is an ASCII character only if the character is. -/
lemma is_lead {d : Char} (h : d.utf8Size = 1) (c : Char) : is d (lead c) = (c == d) :=
  ascii_lead (onAscii_eq h) c

/-! ## Texts -/

/-- The bytes of a text start with those of its first character. -/
lemma bytes_cons (c : Char) (cs : Text) :
    Text.bytes (c :: cs) = lead c :: (trail c ++ Text.bytes cs) := by
  rw [Text.bytes, List.flatMap_cons, utf8EncodeChar_eq]
  rfl

/-- The bytes of two texts are those of the one and those of the other. -/
lemma bytes_append (a b : Text) : Text.bytes (a ++ b) = Text.bytes a ++ Text.bytes b :=
  List.flatMap_append

/-- A text has as many bytes as its size says. -/
lemma length_bytes (text : Text) : (Text.bytes text).length = text.byteSize := by
  induction text with
  | nil => rfl
  | cons c cs ih =>
    rw [bytes_cons, List.length_cons, List.length_append, ih, Text.byteSize_cons, ← length_trail]
    omega

/-- The bytes of the first characters are the first bytes. -/
lemma take_bytes (n : Nat) (text : Text) :
    (Text.bytes text).take (Text.byteSize (text.take n)) = Text.bytes (text.take n) := by
  have split := bytes_append (text.take n) (text.drop n)
  rw [List.take_append_drop] at split
  rw [split, ← length_bytes]
  exact List.take_left

/-- Behind the bytes of the first characters stand those of the others. -/
lemma drop_bytes (n : Nat) (text : Text) :
    (Text.bytes text).drop (Text.byteSize (text.take n)) = Text.bytes (text.drop n) := by
  have split := bytes_append (text.take n) (text.drop n)
  rw [List.take_append_drop] at split
  rw [split, ← length_bytes]
  exact List.drop_left

/-- The next byte passes a test of ASCII characters as the next character does. -/
lemma head?_bytes (hp : OnAscii p) (text : Text) :
    (Text.bytes text).head?.any (ascii p) = text.head?.any p := by
  cases text with
  | nil => rfl
  | cons c cs =>
    rw [bytes_cons, List.head?_cons, List.head?_cons]
    exact ascii_lead hp c

/-- The bytes of a text are those of the string. -/
lemma fromUTF8?_bytes (text : Text) :
    String.fromUTF8? (Text.bytes text).toByteArray = some (String.ofList text) := by
  have valid : (Text.bytes text).toByteArray.IsValidUTF8 := ⟨text, rfl⟩
  rw [String.fromUTF8?, dif_pos valid]
  refine congrArg some (String.toByteArray_inj.mp ?_)
  rw [String.toByteArray_ofList]
  rfl

end Scanner

end TypeqlAssist

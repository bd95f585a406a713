/-!
# Text and its byte offsets

A text is a list of characters. Offsets count the bytes of its UTF-8 form, so an offset is a
boundary of the text exactly when a whole number of characters stands before it.
-/

namespace TypeqlAssist

/-- A document's characters. -/
abbrev Text := List Char

namespace Text

/-- The number of bytes of a text in UTF-8. -/
def byteSize : Text → Nat
  | [] => 0
  | c :: cs => c.utf8Size + byteSize cs

/-- The empty text has no bytes. -/
@[simp]
theorem byteSize_nil : byteSize [] = 0 := rfl

/-- The bytes of a text are those of its first character and those of the rest. -/
@[simp]
theorem byteSize_cons (c : Char) (cs : Text) : byteSize (c :: cs) = c.utf8Size + byteSize cs := rfl

/-- The sizes of two texts add up when the texts are joined. -/
@[simp]
theorem byteSize_append (a b : Text) : byteSize (a ++ b) = byteSize a + byteSize b := by
  induction a with
  | nil => simp
  | cons c cs ih => simp [ih, Nat.add_assoc]

/-- What stands after the first `n` bytes, if `n` is a boundary of the text. -/
def dropBytes? : Nat → Text → Option Text
  | 0, cs => some cs
  | _ + 1, [] => none
  | n + 1, c :: cs => if c.utf8Size ≤ n + 1 then dropBytes? (n + 1 - c.utf8Size) cs else none

/-- The characters of the first `n` bytes, if `n` is a boundary of the text. -/
def takeBytes? : Nat → Text → Option Text
  | 0, _ => some []
  | _ + 1, [] => none
  | n + 1, c :: cs =>
    if c.utf8Size ≤ n + 1 then (takeBytes? (n + 1 - c.utf8Size) cs).map (c :: ·) else none

/-- A whole number of characters takes up the first `n` bytes. -/
def isBoundary (text : Text) (n : Nat) : Bool :=
  (dropBytes? n text).isSome

/-- The part from byte `start` to byte `stop`, if both are boundaries in this order. -/
def slice? (text : Text) (start stop : Nat) : Option Text :=
  if start ≤ stop then (dropBytes? start text).bind (takeBytes? (stop - start)) else none

/-- The part from byte `start` to byte `stop`, empty where the text has no such part. -/
def slice (text : Text) (start stop : Nat) : Text :=
  (slice? text start stop).getD []

/-- The longest leading part of at most `n` bytes. -/
def takeUpTo : Nat → Text → Text
  | _, [] => []
  | n, c :: cs => if c.utf8Size ≤ n then c :: takeUpTo (n - c.utf8Size) cs else []

end Text

end TypeqlAssist

import TypeqlAssist.Json.Basic
import TypeqlAssist.Text.Bytes

/-!
# Reading JSON

`Json.read?` accepts strict JSON with blanks around it and nothing else: no comments, no trailing
comma, no leading zero, no raw control character in a string.
-/

namespace TypeqlAssist

namespace Json

/-- What stands after leading blanks. -/
def skipBlanks : Text → Text
  | [] => []
  | c :: cs => if c == ' ' || c == '\t' || c == '\n' || c == '\r' then skipBlanks cs else c :: cs

/-- The value of a hexadecimal digit. -/
def hexValue? (c : Char) : Option Nat :=
  if '0' ≤ c ∧ c ≤ '9' then some (c.toNat - '0'.toNat)
  else if 'a' ≤ c ∧ c ≤ 'f' then some (c.toNat - 'a'.toNat + 10)
  else if 'A' ≤ c ∧ c ≤ 'F' then some (c.toNat - 'A'.toNat + 10)
  else none

/-- The UTF-16 unit of four hexadecimal digits. -/
def unitOf? (a b c d : Char) : Option Nat := do
  let w ← hexValue? a
  let x ← hexValue? b
  let y ← hexValue? c
  let z ← hexValue? d
  return ((w * 16 + x) * 16 + y) * 16 + z

/-- The character that a backslash and one more character stand for. -/
def escaped? : Char → Option Char
  | '"' => some '"'
  | '\\' => some '\\'
  | '/' => some '/'
  | 'b' => some '\x08'
  | 'f' => some '\x0c'
  | 'n' => some '\n'
  | 'r' => some '\r'
  | 't' => some '\t'
  | _ => none

/-- A leading unit of a pair of units. -/
def isHighUnit (u : Nat) : Bool :=
  0xD800 ≤ u && u < 0xDC00

/-- A trailing unit of a pair of units. -/
def isLowUnit (u : Nat) : Bool :=
  0xDC00 ≤ u && u < 0xE000

/-- The characters of a string after its opening quote, and what stands after its closing quote. -/
def readString? : Text → Option (Text × Text)
  | [] => none
  | '"' :: cs => some ([], cs)
  | '\\' :: 'u' :: a :: b :: c :: d :: '\\' :: 'u' :: e :: f :: g :: h :: cs =>
    match unitOf? a b c d with
    | none => none
    | some u =>
      if isHighUnit u then
        match unitOf? e f g h with
        | none => none
        | some v =>
          if isLowUnit v then
            let code := 0x10000 + (u - 0xD800) * 0x400 + (v - 0xDC00)
            (readString? cs).map fun (s, r) => (Char.ofNat code :: s, r)
          else none
      else if isLowUnit u then none
      else (readString? ('\\' :: 'u' :: e :: f :: g :: h :: cs)).map fun (s, r) =>
        (Char.ofNat u :: s, r)
  | '\\' :: 'u' :: a :: b :: c :: d :: cs =>
    match unitOf? a b c d with
    | none => none
    | some u =>
      if isHighUnit u || isLowUnit u then none
      else (readString? cs).map fun (s, r) => (Char.ofNat u :: s, r)
  | '\\' :: e :: cs =>
    match escaped? e with
    | none => none
    | some c => (readString? cs).map fun (s, r) => (c :: s, r)
  | c :: cs =>
    if c == '\\' || c.toNat < 0x20 then none
    else (readString? cs).map fun (s, r) => (c :: s, r)

/-- The value of a row of decimal digits, most significant first. -/
def digitsValue (ds : Text) : Nat :=
  ds.foldl (fun n d => n * 10 + (d.toNat - '0'.toNat)) 0

/-- A row of one or more decimal digits, and what stands after it. -/
def readDigits? (cs : Text) : Option (Text × Text) :=
  let ds := cs.takeWhile Char.isDigit
  if ds.isEmpty then none else some (ds, cs.dropWhile Char.isDigit)

/-- The digits before the point: a single zero, or a row that starts with none. -/
def readWhole? : Text → Option (Text × Text)
  | '0' :: cs => some (['0'], cs)
  | cs => readDigits? cs

/-- The optional part after the point, empty when there is none. -/
def readFraction? : Text → Option (Text × Text)
  | '.' :: cs => readDigits? cs
  | cs => some ([], cs)

/-- An optional sign. -/
def readSign : Text → Bool × Text
  | '-' :: cs => (true, cs)
  | '+' :: cs => (false, cs)
  | cs => (false, cs)

/-- The optional exponent. -/
def readExponent? : Text → Option (Option Int × Text)
  | [] => some (none, [])
  | e :: cs =>
    if e == 'e' || e == 'E' then do
      let (negative, rest) := readSign cs
      let (ds, rest) ← readDigits? rest
      let size : Int := digitsValue ds
      return (some (if negative then -size else size), rest)
    else some (none, e :: cs)

/-- A number, and what stands after it. -/
def readNumber? (cs : Text) : Option (Number × Text) := do
  let negative := cs.head? == some '-'
  let (whole, rest) ← readWhole? (if negative then cs.tail else cs)
  let (fraction, rest) ← readFraction? rest
  let (exponent, rest) ← readExponent? rest
  return ({
    negative
    digits := digitsValue (whole ++ fraction)
    exponent := exponent.getD 0 - fraction.length
    isPlain := fraction.isEmpty && exponent.isNone }, rest)

mutual

/-- A value, and what stands after it. -/
def readValue? : Nat → Text → Option (Json × Text)
  | 0, _ => none
  | fuel + 1, cs =>
    match skipBlanks cs with
    | 'n' :: 'u' :: 'l' :: 'l' :: rest => some (null, rest)
    | 't' :: 'r' :: 'u' :: 'e' :: rest => some (bool true, rest)
    | 'f' :: 'a' :: 'l' :: 's' :: 'e' :: rest => some (bool false, rest)
    | '"' :: rest => (readString? rest).map fun (s, r) => (string (String.ofList s), r)
    | '[' :: rest =>
      match skipBlanks rest with
      | ']' :: rest => some (array [], rest)
      | _ => (readItems? fuel rest).map fun (items, r) => (array items, r)
    | '{' :: rest =>
      match skipBlanks rest with
      | '}' :: rest => some (object [], rest)
      | _ => (readFields? fuel rest).map fun (fields, r) => (object fields, r)
    | rest => (readNumber? rest).map fun (n, r) => (number n, r)

/-- The items of an array that is not empty, and what stands after its bracket. -/
def readItems? : Nat → Text → Option (List Json × Text)
  | 0, _ => none
  | fuel + 1, cs =>
    match readValue? fuel cs with
    | none => none
    | some (item, rest) =>
      match skipBlanks rest with
      | ']' :: rest => some ([item], rest)
      | ',' :: rest => (readItems? fuel rest).map fun (items, r) => (item :: items, r)
      | _ => none

/-- The fields of an object that is not empty, and what stands after its brace. -/
def readFields? : Nat → Text → Option (List (String × Json) × Text)
  | 0, _ => none
  | fuel + 1, cs =>
    match skipBlanks cs with
    | '"' :: rest =>
      match readString? rest with
      | none => none
      | some (name, rest) =>
        match skipBlanks rest with
        | ':' :: rest =>
          match readValue? fuel rest with
          | none => none
          | some (value, rest) =>
            match skipBlanks rest with
            | '}' :: rest => some ([(String.ofList name, value)], rest)
            | ',' :: rest =>
              (readFields? fuel rest).map fun (fields, r) =>
                ((String.ofList name, value) :: fields, r)
            | _ => none
        | _ => none
    | _ => none

end

/-- The value of a JSON text, if the whole text is one. -/
def read? (text : Text) : Option Json :=
  match readValue? (2 * text.length + 2) text with
  | some (value, rest) => if (skipBlanks rest).isEmpty then some value else none
  | none => none

end Json

end TypeqlAssist

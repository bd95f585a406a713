import TypeqlAssist.Json.Basic

/-!
# Writing JSON

`Json.render` writes a value without blanks. Control characters and the line separators that some
readers split at are written as escapes.
-/

namespace TypeqlAssist

namespace Json

/-- A number as four hexadecimal digits. -/
def hex4 (n : Nat) : String :=
  String.ofList [Nat.digitChar (n / 4096 % 16), Nat.digitChar (n / 256 % 16),
    Nat.digitChar (n / 16 % 16), Nat.digitChar (n % 16)]

/-- A character is written as an escape by its number. -/
def needsEscape (c : Char) : Bool :=
  c.toNat < 0x20 || c.toNat == 0x7F || c.toNat == 0x85 || c.toNat == 0x2028 || c.toNat == 0x2029

/-- A character inside a string. -/
def renderChar (c : Char) : String :=
  if c == '"' then "\\\""
  else if c == '\\' then "\\\\"
  else if needsEscape c then "\\u" ++ hex4 c.toNat
  else c.toString

/-- A string with its quotes. -/
def renderString (s : String) : String :=
  s.toList.foldl (fun text c => text ++ renderChar c) "\"" ++ "\""

/-- A number; one with an exponent is written with it. -/
def renderNumber (n : Number) : String :=
  let sign := if n.negative then "-" else ""
  let power := if n.exponent == 0 then "" else "e" ++ toString n.exponent
  sign ++ toString n.digits ++ power

mutual

/-- A value without blanks. -/
def render : Json → String
  | null => "null"
  | bool b => if b then "true" else "false"
  | number n => renderNumber n
  | string s => renderString s
  | array items => "[" ++ ",".intercalate (renderItems items) ++ "]"
  | object fields => "\x7b" ++ ",".intercalate (renderFields fields) ++ "\x7d"

/-- The items of an array, one text each. -/
def renderItems : List Json → List String
  | [] => []
  | item :: items => render item :: renderItems items

/-- The fields of an object, one text each. -/
def renderFields : List (String × Json) → List String
  | [] => []
  | (name, value) :: fields => (renderString name ++ ":" ++ render value) :: renderFields fields

end

end Json

end TypeqlAssist

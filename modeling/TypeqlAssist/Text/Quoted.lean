import TypeqlAssist.Text.Printable

/-!
# Quoted texts in messages

A text in quotes shows what it holds: quotes, backslashes and the usual controls have a short
escape, and other characters that do not print are written by their number.
-/

namespace TypeqlAssist

namespace Text

/-- A character between quotes. -/
def quotedChar (c : Char) : String :=
  if c == '"' then "\\\""
  else if c == '\\' then "\\\\"
  else if c == '\n' then "\\n"
  else if c == '\t' then "\\t"
  else if c == '\r' then "\\r"
  else if c == '\x00' then "\\0"
  else if isPrintable c then c.toString
  else "\\u\x7b" ++ String.ofList (Nat.toDigits 16 c.toNat) ++ "\x7d"

/-- A text in quotes. -/
def quoted (s : String) : String :=
  "\"" ++ String.join (s.toList.map quotedChar) ++ "\""

/-- Texts in quotes between brackets. -/
def quotedList (items : List String) : String :=
  "[" ++ ", ".intercalate (items.map quoted) ++ "]"

end Text

end TypeqlAssist

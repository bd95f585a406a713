import TypeqlAssist.Text.Bytes

/-!
# Lines

A line ends before a line feed; one carriage return in front of the line feed belongs to the end.
-/

namespace TypeqlAssist

namespace Text

/-- The parts of a text between line feeds, one more than there are line feeds. -/
def splitLines : Text → List Text
  | [] => [[]]
  | c :: cs =>
    if c == '\n' then [] :: splitLines cs
    else
      match splitLines cs with
      | [] => [[c]]
      | line :: rest => (c :: line) :: rest

/-- A line without one carriage return at its end. -/
def dropReturn (line : Text) : Text :=
  if line.getLast? == some '\r' then line.dropLast else line

/-- The lines of a text; a line feed at the end opens no further line. -/
def lines (text : Text) : List Text :=
  let parts := splitLines text
  let ended := parts.dropLast.map dropReturn
  match parts.getLast? with
  | some (c :: cs) => ended ++ [c :: cs]
  | _ => ended

/-- Lines put together with line feeds between them. -/
def joinLines : List Text → Text
  | [] => []
  | [line] => line
  | line :: rest => line ++ '\n' :: joinLines rest

end Text

end TypeqlAssist

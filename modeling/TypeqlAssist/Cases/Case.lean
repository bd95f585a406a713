import TypeqlAssist.Text.Blank

/-!
# Completion cases

A case is a document with a cursor in it and what should be offered there.
-/

namespace TypeqlAssist

namespace Cases

/-- How what is offered is compared with what is expected. -/
inductive Mode where
  /-- All that is expected is offered, and perhaps more. -/
  | contains
  /-- Exactly the expected labels are offered, in any order. -/
  | exact
  /-- Nothing is offered. -/
  | empty
  deriving DecidableEq, Repr, Inhabited

/-- The stable spelling of a mode. -/
def Mode.name : Mode → String
  | contains => "contains"
  | exact => "exact"
  | empty => "empty"

/-- A candidate that should be offered, of any category unless one is given. -/
structure Expected where
  label : String
  category : Option String
  deriving DecidableEq, Repr, Inhabited

/-- A completion case. -/
structure Case where
  description : String
  /-- The document, with `|` at the cursor. -/
  input : Text
  expected : List Expected
  /-- Labels that must not be offered. -/
  excluded : List String
  mode : Mode
  deriving DecidableEq, Repr, Inhabited

/-- What is wrong with a line of a case file. -/
inductive Flaw where
  | outsideField (text : Text)
  | noDescription
  | noInput
  | noCursor (description : String)
  deriving DecidableEq, Repr

/-- The message of a flaw. -/
def Flaw.message : Flaw → String
  | outsideField text => "text outside of a field: " ++ String.ofList text
  | noDescription => "missing description field"
  | noInput => "missing input field"
  | noCursor description => "input of '" ++ description ++ "' has no cursor marker"

/-- Why a case file cannot be read. -/
inductive ReadError where
  | missingFile
  | invalidMode (text : Text)
  | invalidLine (line : Nat) (flaw : Flaw)
  | emptyFile
  | invalidExpected (text : Text)
  deriving DecidableEq, Repr

/-- The message of an error. -/
def ReadError.message : ReadError → String
  | missingFile => "IO error: No such file or directory (os error 2)"
  | invalidMode text => "Invalid match mode: " ++ String.ofList text
  | invalidLine line flaw => "Invalid syntax at line " ++ toString line ++ ": " ++ flaw.message
  | emptyFile => "Empty test case file"
  | invalidExpected text => "Invalid expected item format: " ++ String.ofList text

/-- The mode that a text names, in letters of either case and with blanks around it. -/
def Mode.read (text : Text) : Except ReadError Mode :=
  match String.ofList ((Text.trim text).map Char.toLower) with
  | "contains" => .ok .contains
  | "exact" => .ok .exact
  | "empty" => .ok .empty
  | "none" => .ok .empty
  | _ => .error (.invalidMode text)

/-- The text behind the last `[`, with the text in front of it. -/
def splitAtLastBracket? : Text → Option (Text × Text)
  | [] => none
  | c :: cs =>
    match splitAtLastBracket? cs with
    | some (before, after) => some (c :: before, after)
    | none => if c == '[' then some ([], cs) else none

/--
The expected candidate of a line, without the blanks around it: a label, and a category if one
follows in brackets.
-/
def Expected.read (line : Text) : Except ReadError Expected :=
  let item := Text.trim line
  if item.isEmpty then .error (.invalidExpected "empty item".toList)
  else
    match splitAtLastBracket? item with
    | some (before, after) =>
      if after.getLast? == some ']' then
        let label := Text.trim before
        let category := Text.trim after.dropLast
        if label.isEmpty || category.isEmpty then .error (.invalidExpected item)
        else .ok ⟨String.ofList label, some (String.ofList category)⟩
      else .ok ⟨String.ofList item, none⟩
    | none => .ok ⟨String.ofList item, none⟩

end Cases

end TypeqlAssist

import TypeqlAssist.Cases.Case
import TypeqlAssist.Cases.Dedent

/-!
# Reading case files

A case is a list of fields, each named at the start of a line with a colon, its value on that line
or below it. A line of three hyphens ends a case. A draft that has neither a description nor an
input is no case yet, and goes on after the hyphens.
-/

namespace TypeqlAssist

namespace Cases

/-- The fields of a case. -/
inductive Field where
  | description
  | input
  | expected
  | excluded
  | mode
  deriving DecidableEq, Repr

namespace Field

/-- The name of a field. -/
def name : Field → String
  | description => "description"
  | input => "input"
  | expected => "expected"
  | excluded => "excluded"
  | mode => "mode"

/-- Every field. -/
def all : List Field :=
  [description, input, expected, excluded, mode]

/-- The text after the name of a field and a colon, if the line starts with them. -/
def valueOn? (f : Field) (line : Text) : Option Text :=
  let head := f.name.toList ++ [':']
  if head.isPrefixOf line then some (line.drop head.length) else none

/-- The field that a line names, with the text after it. -/
def ofLine? (line : Text) : Option (Field × Text) :=
  all.findSome? fun f => (f.valueOn? line).map fun value => (f, value)

end Field

/-- A case in the making. -/
structure Draft where
  description : Option String
  input : Option Text
  expected : List Expected
  excluded : List String
  mode : Option Mode
  deriving Repr, Inhabited

namespace Draft

/-- A draft of which nothing is known. -/
def blank : Draft :=
  ⟨none, none, [], [], none⟩

/-- The draft is that of a case. -/
def hasFields (d : Draft) : Bool :=
  d.description.isSome || d.input.isSome

/-- The lines that are not blank, without the blanks around them. -/
def entries (value : List Text) : List Text :=
  (value.map Text.trim).filter fun l => !l.isEmpty

/-- Sets a field to the lines of its value. -/
def set (d : Draft) (f : Field) (value : List Text) : Except ReadError Draft :=
  match f with
  | .description =>
    .ok { d with description := some (String.ofList (Text.trim (Text.joinLines value))) }
  | .input => .ok { d with input := some (dedent value) }
  | .expected => ((entries value).mapM Expected.read).map fun items => { d with expected := items }
  | .excluded => .ok { d with excluded := (entries value).map String.ofList }
  | .mode => (Mode.read value.flatten).map fun m => { d with mode := some m }

/-- The case of a draft that ends on a line. -/
def finish (d : Draft) (line : Nat) : Except ReadError Case :=
  match d.description, d.input with
  | none, _ => .error (.invalidLine line .noDescription)
  | _, none => .error (.invalidLine line .noInput)
  | some description, some input =>
    if input.contains '|' then
      .ok ⟨description, input, d.expected, d.excluded, d.mode.getD .contains⟩
    else .error (.invalidLine line (.noCursor description))

end Draft

/-- What has been read so far: the draft, the field being read with its lines, and the cases. -/
structure Progress where
  draft : Draft
  field : Option (Field × List Text)
  cases : List Case
  deriving Repr, Inhabited

namespace Progress

/-- Nothing has been read. -/
def start : Progress :=
  ⟨.blank, none, []⟩

/-- Sets the field being read. -/
def closeField (p : Progress) : Except ReadError Progress :=
  match p.field with
  | none => .ok p
  | some (f, value) => (p.draft.set f value).map fun draft => { p with draft, field := none }

/-- Ends the case being read, on a line. -/
def closeCase (p : Progress) (line : Nat) : Except ReadError Progress :=
  match p.closeField with
  | .error e => .error e
  | .ok q =>
    if q.draft.hasFields then
      (q.draft.finish line).map fun c => { q with draft := .blank, cases := q.cases ++ [c] }
    else .ok q

/-- The value that stands on the line of a field's name; a lone `|` announces lines below it. -/
def firstLines (value : Text) : List Text :=
  let v := Text.trim value
  if v.isEmpty || v == ['|'] then [] else [v]

/-- Reads a line. -/
def readLine (p : Progress) (number : Nat) (line : Text) : Except ReadError Progress :=
  let trimmed := Text.trim line
  if trimmed.isEmpty && p.field.isNone then .ok p
  else if trimmed == ['-', '-', '-'] then p.closeCase number
  else
    match Field.ofLine? line with
    | some (f, value) => p.closeField.map fun q => { q with field := some (f, firstLines value) }
    | none =>
      match p.field with
      | some (f, value) => .ok { p with field := some (f, value ++ [line]) }
      | none => .error (.invalidLine number (.outsideField trimmed))

/-- Reads lines, of which the first has a number. -/
def readLines (p : Progress) (number : Nat) : List Text → Except ReadError Progress
  | [] => .ok p
  | line :: rest =>
    match p.readLine number line with
    | .error e => .error e
    | .ok q => q.readLines (number + 1) rest

end Progress

/-- The cases of a file; there must be one at least. -/
def readCases (content : Text) : Except ReadError (List Case) :=
  let lines := Text.lines content
  match Progress.start.readLines 1 lines with
  | .error e => .error e
  | .ok p =>
    match p.closeCase lines.length with
    | .error e => .error e
    | .ok q => if q.cases.isEmpty then .error .emptyFile else .ok q.cases

/-- The cases of a file that may be missing. -/
def casesOfFile : Option Text → Except ReadError (List Case)
  | none => .error .missingFile
  | some content => readCases content

end Cases

end TypeqlAssist

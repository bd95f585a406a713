import TypeqlAssist.Directory
import TypeqlAssist.Editor.Wire
import TypeqlAssist.Json.Reader

/-!
# The command line

The command completes a file at a cursor, which is an offset or a zero-based line and column with
a colon between them, and prints what is offered, as items too, with the diagnostics of the file.
-/

namespace TypeqlAssist

namespace CommandLine

open Editor (Config Position RequestError)

/-! ## Arguments -/

/-- What the arguments ask for. -/
structure Request where
  file : String
  cursor : String
  config : Option String
  deriving DecidableEq, Repr

/-- The arguments sorted out: positional ones in order, and the values of `--config`. -/
structure Sorted where
  positional : List String
  configs : List String
  deriving DecidableEq, Repr

/-- An argument is written like an option. A hyphen alone is an ordinary name. -/
def isOption (arg : String) : Bool :=
  arg.toList.head? == some '-' && arg != "-"

/-- The value that is joined to the option by an equals sign. -/
def joinedConfig? (arg : String) : Option String :=
  let head := "--config=".toList
  if head.isPrefixOf arg.toList then some (String.ofList (arg.toList.drop head.length)) else none

/-- Sorts out arguments; there is no answer where an option is unknown or lacks its value. -/
def sortOut? : List String → Option Sorted
  | [] => some ⟨[], []⟩
  | "--" :: rest => some ⟨rest, []⟩
  | "--config" :: rest =>
    match rest with
    | [] => none
    | value :: rest =>
      if isOption value then none
      else (sortOut? rest).map fun s => { s with configs := value :: s.configs }
  | arg :: rest =>
    match joinedConfig? arg with
    | some value => (sortOut? rest).map fun s => { s with configs := value :: s.configs }
    | none =>
      if isOption arg then none
      else (sortOut? rest).map fun s => { s with positional := arg :: s.positional }

/-- The request of arguments: a file, a cursor and at most one configuration. Names of files are
not empty. -/
def request? (args : List String) : Option Request :=
  match sortOut? args with
  | some ⟨[file, cursor], []⟩ => if file == "" then none else some ⟨file, cursor, none⟩
  | some ⟨[file, cursor], [config]⟩ =>
    if file == "" || config == "" then none else some ⟨file, cursor, some config⟩
  | _ => none

/-! ## Numbers -/

/-- Why a number cannot be read. -/
inductive NumberError where
  | noDigits
  | invalidDigit
  | tooLarge
  deriving DecidableEq, Repr

/-- The message of an error. -/
def NumberError.message : NumberError → String
  | noDigits => "cannot parse integer from empty string"
  | invalidDigit => "invalid digit found in string"
  | tooLarge => "number too large to fit in target type"

/-- Reads digits after a value read before; the first character that does not fit is reported. -/
def readDigits (bound : Nat) : (value : Nat) → Text → Except NumberError Nat
  | value, [] => .ok value
  | value, c :: cs =>
    if c.isDigit then
      let next := value * 10 + (c.toNat - '0'.toNat)
      if next < bound then readDigits bound next cs else .error .tooLarge
    else .error .invalidDigit

/-- Reads a natural below a bound, with an optional plus sign. -/
def readNumber (bound : Nat) (text : Text) : Except NumberError Nat :=
  match text with
  | [] => .error .noDigits
  | ['+'] => .error .invalidDigit
  | '+' :: ds => readDigits bound 0 ds
  | ds => readDigits bound 0 ds

/-! ## Answers -/

/-- Why the command fails. -/
inductive Failure where
  | unreadableConfig (path : String) (error : PathError)
  | unreadableFile (path : String) (error : PathError)
  | config (error : Config.Error)
  | line (error : NumberError)
  | column (error : NumberError)
  | offset (error : NumberError)
  | request (error : RequestError)
  deriving Repr

namespace Failure

/-- What went wrong. -/
def message : Failure → String
  | unreadableConfig path _ => "failed to read config " ++ path
  | unreadableFile path _ => "failed to read " ++ path
  | config (.invalid _) => "Invalid configuration"
  | config .noItems => Config.Error.noItems.message
  | line _ => "invalid line"
  | column _ => "invalid column"
  | offset _ => "invalid offset"
  | request e => e.message

/-- What caused it, if that is something else. -/
def cause? : Failure → Option String
  | unreadableConfig _ e | unreadableFile _ e => some e.message
  | line e | column e | offset e => some e.message
  | config _ | request _ => none

/-- The report of a failure. -/
def report (f : Failure) : String :=
  "Error: " ++ f.message ++
    match f.cause? with
    | none => ""
    | some cause => "\n\nCaused by:\n    " ++ cause

end Failure

/-- The two sides of the first colon, if there is one. -/
def splitColon? (text : Text) : Option (Text × Text) :=
  match text.dropWhile (· != ':') with
  | [] => none
  | _ :: after => some (text.takeWhile (· != ':'), after)

/-- The offset of a cursor in a text. -/
def cursorOffset (text cursor : Text) : Except Failure Nat :=
  match splitColon? cursor with
  | some (line, column) => do
    let line ← (readNumber (Nat.pow 2 32) line).mapError .line
    let character ← (readNumber (Nat.pow 2 32) column).mapError .column
    (Editor.offsetOf text ⟨line, character⟩).mapError .request
  | none => (readNumber (Nat.pow 2 64) cursor).mapError .offset

/-- The configuration that a request names, or the default. -/
def loadConfig (read : String → Except PathError String) : Option String → Except Failure Config
  | none => .ok Config.default
  | some path =>
    match read path with
    | .error e => .error (.unreadableConfig path e)
    | .ok json => (Config.ofText json.toList).mapError .config

/-- The answer to a request, where `read` gives the content of a file. -/
def answer (read : String → Except PathError String) (r : Request) : Except Failure Json := do
  let config ← loadConfig read r.config
  let content ← (read r.file).mapError (.unreadableFile r.file)
  let text := content.toList
  let offset ← cursorOffset text r.cursor.toList
  let result ← (Editor.completeAt text offset).mapError .request
  let items ← (Editor.itemsAt config text offset).mapError .request
  return .object [("result", .ofOption Editor.Wire.result result),
    ("items", .ofList Editor.Wire.item items),
    ("diagnostics", .ofList Editor.Wire.diagnostic (Editor.diagnostics text))]

/-- How a run of the command ends. -/
inductive Outcome where
  | usage
  | failure (failure : Failure)
  | success (output : Json)

/-- Runs the command on arguments. -/
def run (read : String → Except PathError String) (args : List String) : Outcome :=
  match request? args with
  | none => .usage
  | some r =>
    match answer read r with
    | .error f => .failure f
    | .ok output => .success output

/-- The files that a run may read. -/
def filesNamed (args : List String) : List String :=
  match request? args with
  | none => []
  | some r => r.file :: r.config.toList

/-- How to call the command. -/
def usageText : String :=
  "usage: typeql-complete <file> <offset|line:col> [--config <file>]"

end CommandLine

end TypeqlAssist

import TypeqlAssist.Decimal.Layout
import TypeqlAssist.Decimal.Shortest
import TypeqlAssist.Json.Reader
import TypeqlAssist.Text.Quoted

/-!
# Configuration

Options come as JSON, as a text of their own or nested in a client's settings. Both options have a
default. The first fault found is reported; that no items are wanted is found last.
-/

namespace TypeqlAssist

namespace Editor

/-- How completion items are made. -/
structure Config where
  /-- The largest number of items. -/
  maxItems : Nat
  /-- Templates become snippets with tab stops. -/
  snippets : Bool
  deriving DecidableEq, Repr, Inhabited

namespace Config

/-- The options of a client that gives none. -/
def default : Config :=
  ⟨100, true⟩

/-- What a place in a configuration takes. -/
inductive Wanted where
  | options
  | count
  | flag
  deriving DecidableEq, Repr

/-- How a message speaks of what is wanted. -/
def Wanted.text : Wanted → String
  | options => "struct EngineConfig"
  | count => "usize"
  | flag => "a boolean"

/-- Why a configuration is not valid. -/
inductive Fault where
  | malformed
  | wrongType (found : Json) (wanted : Wanted)
  | negativeCount (value : Json.Number)
  | unknownField (name : String)
  | repeatedField (name : String)
  | tooManyElements (count : Nat)
  deriving Repr

/-- The error of a configuration. -/
inductive Error where
  | invalid (fault : Fault)
  | noItems
  deriving Repr

/-- Counts and lengths are below this bound. -/
def countBound : Nat := Nat.pow 2 64

/-- A number written as an integer that a machine word holds, signed if negative. -/
def isInteger (n : Json.Number) : Bool :=
  n.isPlain && (if n.negative then 0 < n.digits && n.digits ≤ Nat.pow 2 63 else n.digits < countBound)

/-- Numbers are written positionally from a hundred-thousandth on and below ten to the 16. -/
def numberLayout : Decimal.Layout :=
  ⟨-5, 16⟩

/-- The text of a number in a message. -/
def numberText (n : Json.Number) : String :=
  let sign := if n.negative then "-" else ""
  if isInteger n then "integer `" ++ sign ++ toString n.digits ++ "`"
  else
    "floating point `" ++ sign ++
      numberLayout.text (Decimal.shortest (.ofDigits ⟨n.digits, n.exponent⟩)) ++ "`"

/-- The text of a value in a message. -/
def valueText : Json → String
  | .null => "null"
  | .bool b => "boolean `" ++ (if b then "true" else "false") ++ "`"
  | .number n => numberText n
  | .string s => "string " ++ Text.quoted s
  | .array _ => "sequence"
  | .object _ => "map"

/-- The message of a fault. -/
def Fault.message : Fault → String
  | malformed => "malformed JSON"
  | wrongType found wanted => "invalid type: " ++ valueText found ++ ", expected " ++ wanted.text
  | negativeCount n => "invalid value: " ++ numberText n ++ ", expected usize"
  | unknownField name => "unknown field `" ++ name ++ "`, expected `maxItems` or `snippets`"
  | repeatedField name => "duplicate field `" ++ name ++ "`"
  | tooManyElements n => "invalid length " ++ toString n ++ ", expected fewer elements in array"

/-- The message of an error. -/
def Error.message : Error → String
  | invalid fault => "Invalid configuration: " ++ fault.message
  | noItems => "maxItems must be greater than zero"

/-- A count: a plain integer that is not negative. -/
def readCount : Json → Except Fault Nat
  | .number n =>
    if !isInteger n then .error (.wrongType (.number n) .count)
    else if n.negative then .error (.negativeCount n)
    else .ok n.digits
  | v => .error (.wrongType v .count)

/-- A flag. -/
def readFlag : Json → Except Fault Bool
  | .bool b => .ok b
  | v => .error (.wrongType v .flag)

/-- The configuration with one field set. -/
def setField (config : Config) (name : String) (value : Json) : Except Fault Config :=
  match name with
  | "maxItems" => (readCount value).map fun n => { config with maxItems := n }
  | "snippets" => (readFlag value).map fun b => { config with snippets := b }
  | _ => .error (.unknownField name)

/-- The configuration of named fields, read in order. A field may be given once. -/
def ofFields (config : Config) : List (String × Json) → Except Fault Config
  | [] => .ok config
  | (name, value) :: rest =>
    match config.setField name value with
    | .error fault => .error fault
    | .ok config =>
      if rest.any (·.1 == name) then .error (.repeatedField name) else config.ofFields rest

/-- The configuration of a list: the count, then the flag, and nothing more. -/
def ofElements (elements : List Json) : Except Fault Config :=
  match elements with
  | [] => .ok default
  | [n] => (readCount n).map fun n => ⟨n, default.snippets⟩
  | n :: b :: rest =>
    match readCount n, readFlag b with
    | .error fault, _ => .error fault
    | _, .error fault => .error fault
    | .ok n, .ok b =>
      if rest.isEmpty then .ok ⟨n, b⟩ else .error (.tooManyElements elements.length)

/-- The configuration of a JSON value. -/
def ofJson : Json → Except Fault Config
  | .object fields => default.ofFields fields
  | .array elements => ofElements elements
  | v => .error (.wrongType v .options)

/-- A configuration that has been read must want some items. -/
def checked : Except Fault Config → Except Error Config
  | .error fault => .error (.invalid fault)
  | .ok config => if config.maxItems = 0 then .error .noItems else .ok config

/-- The configuration of a JSON text. -/
def ofText (text : Text) : Except Error Config :=
  match Json.read? text with
  | none => .error (.invalid .malformed)
  | some value => checked (ofJson value)

/-- Fields by name, in the order of the names; the last of several with one name counts. -/
def sortedFields (fields : List (String × Json)) : List (String × Json) :=
  let later := fields.foldr (fun f kept => if kept.any (·.1 == f.1) then kept else f :: kept) []
  later.mergeSort fun a b => !(b.1 < a.1)

/-- A value with the fields of its topmost object in order. -/
def normalized : Json → Json
  | .object fields => .object (sortedFields fields)
  | v => v

/-- The key under which a client's settings hold the configuration. -/
def settingsKey : String := "typeql"

/-- The configuration in a client's settings, which need not hold any. -/
def ofSettings (settings : Json) : Except Error Config :=
  match settings.field? settingsKey with
  | none => .ok default
  | some value => checked (ofJson (normalized value))

end Config

end Editor

end TypeqlAssist

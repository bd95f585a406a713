import TypeqlAssist.Editor.Engine
import TypeqlAssist.Json.Basic

/-!
# Answers as JSON

The form in which results, items, diagnostics and schemas are handed to a client. Optional parts
of an item or a type are left out when they are absent.
-/

namespace TypeqlAssist

namespace Editor

namespace Wire

open Completion (Candidate Result)

/-- A field that is left out when it is absent. -/
def optionalField (name : String) : Option String → List (String × Json)
  | none => []
  | some s => [(name, .string s)]

/-- A list of texts. -/
def strings (items : List String) : Json :=
  .ofList .string items

/-- A candidate. -/
def candidate (c : Candidate) : Json :=
  .object [("label", .string c.label), ("category", .string c.category.name),
    ("insertText", .string c.insertText), ("info", .ofOption .string c.info),
    ("boost", .ofInt c.boost)]

/-- What is offered at a cursor. -/
def result (r : Result) : Json :=
  .object [("replaceFrom", .ofNat r.replaceFrom), ("candidates", .ofList candidate r.candidates),
    ("continuation", .string Completion.continuationPattern)]

/-- A position. -/
def position (p : Position) : Json :=
  .object [("line", .ofNat p.line), ("character", .ofNat p.character)]

/-- A range. -/
def range (r : Range) : Json :=
  .object [("start", position r.start), ("end", position r.stop)]

/-- A completion item. -/
def item (i : Item) : Json :=
  .object <|
    [("label", .string i.label), ("kind", .ofNat (itemKind i.category))] ++
    optionalField "detail" i.detail ++
    [("sortText", .string i.sortText), ("filterText", .string i.label),
     ("insertTextFormat", .ofNat i.format.code),
     ("textEdit", .object [("range", range i.range), ("newText", .string i.newText)])]

/-- A diagnostic. -/
def diagnostic (d : Diagnostic) : Json :=
  .object [("range", range d.range), ("severity", .ofNat Diagnostic.severity),
    ("code", .string d.code.name), ("source", .string Diagnostic.source),
    ("message", .string d.message)]

/-- A configuration. -/
def config (c : Config) : Json :=
  .object [("maxItems", .ofNat c.maxItems), ("snippets", .bool c.snippets)]

/-- An object type. -/
def objectType (o : ObjectType) : Json :=
  .object <| optionalField "sub" o.supertype ++
    [("owns", strings o.owns), ("plays", strings o.plays), ("relates", strings o.relates)]

/-- An attribute type. -/
def attributeType (a : AttributeType) : Json :=
  .object <| optionalField "sub" a.supertype ++ optionalField "valueType" a.valueType ++
    [("owners", strings a.owners)]

end Wire

end Editor

end TypeqlAssist

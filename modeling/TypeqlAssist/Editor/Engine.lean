import TypeqlAssist.Editor.Diagnostic
import TypeqlAssist.Editor.Item
import TypeqlAssist.Schema.Extract

/-!
# Requests of an editor

Every request parses the text it is given. Offsets must be boundaries of the text; positions must
be on a line of it.
-/

namespace TypeqlAssist

namespace Editor

/-- Why a request has no answer. -/
inductive RequestError where
  | invalidPosition (position : Position)
  | invalidOffset (offset size : Nat)
  deriving DecidableEq, Repr

namespace RequestError

/-- The message of an error. -/
def message : RequestError → String
  | invalidPosition p =>
    "Invalid position: Position \x7b line: " ++ toString p.line ++ ", character: " ++
      toString p.character ++ " \x7d"
  | invalidOffset offset size =>
    "Invalid offset " ++ toString offset ++ " for a document of " ++ toString size ++ " bytes"

/-- The client is better served with an empty answer than with the error. -/
def isBenign : RequestError → Bool
  | invalidPosition _ => true
  | invalidOffset _ _ => false

end RequestError

/-- The offset of a position. -/
def offsetOf (text : Text) (p : Position) : Except RequestError Nat :=
  match p.offsetIn? text with
  | some offset => .ok offset
  | none => .error (.invalidPosition p)

/-- What is offered at an offset. -/
def completeAt (text : Text) (offset : Nat) : Except RequestError (Option Completion.Result) :=
  if text.isBoundary offset then .ok (Completion.complete (parseTree text) text offset)
  else .error (.invalidOffset offset text.byteSize)

/-- The items at an offset. -/
def itemsAt (config : Config) (text : Text) (offset : Nat) : Except RequestError (List Item) :=
  match completeAt text offset with
  | .error e => .error e
  | .ok none => .ok []
  | .ok (some result) => .ok (render config text offset result)

/-- The items at a position. -/
def itemsAtPosition (config : Config) (text : Text) (p : Position) :
    Except RequestError (List Item) :=
  match offsetOf text p with
  | .error e => .error e
  | .ok offset => itemsAt config text offset

end Editor

end TypeqlAssist

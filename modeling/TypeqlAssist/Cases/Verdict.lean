import TypeqlAssist.Cases.Case
import TypeqlAssist.Cases.Cursor
import TypeqlAssist.Completion.Result
import TypeqlAssist.Document
import TypeqlAssist.Text.Quoted

/-!
# Checking cases

What is offered is compared with what a case expects, and the first difference is reported.
-/

namespace TypeqlAssist

namespace Cases

/-- A candidate as a case sees it. -/
structure Offered where
  label : String
  category : String
  deriving DecidableEq, Repr, Inhabited

/-- The first difference between what is offered and what is expected. -/
inductive Mismatch where
  | nothingOffered
  | somethingOffered (labels : List String)
  | notFound (label category : String)
  | labelNotFound (label : String)
  | excludedOffered (label : String)
  | extraOffered (labels : List String)
  deriving DecidableEq, Repr

/-- The message of a mismatch. -/
def Mismatch.message : Mismatch → String
  | nothingOffered => "Expected completions but got none"
  | somethingOffered labels => "Expected no completions, got " ++ Text.quotedList labels
  | notFound label category => "Item not found: " ++ label ++ " [" ++ category ++ "]"
  | labelNotFound label => "Item not found: " ++ label
  | excludedOffered label => "Excluded item offered: " ++ label
  | extraOffered labels => "Unexpected items in exact match: " ++ Text.quotedList labels

/-- An expected candidate is offered. -/
def Expected.isOffered (e : Expected) (items : List Offered) : Bool :=
  items.any fun i => i.label == e.label && e.category.all (i.category == ·)

/-- The mismatch that reports an expected candidate. -/
def Expected.mismatch (e : Expected) : Mismatch :=
  match e.category with
  | some category => .notFound e.label category
  | none => .labelNotFound e.label

/-- The labels offered that a case does not expect. -/
def extraLabels (c : Case) (items : List Offered) : List String :=
  (items.map (·.label)).filter fun l => !c.expected.any (·.label == l)

/-- The first difference between the items offered and a case that expects some. -/
def mismatchIn? (c : Case) (items : List Offered) : Option Mismatch :=
  match c.expected.find? fun e => !e.isOffered items with
  | some e => some e.mismatch
  | none =>
    match c.excluded.find? fun l => items.any (·.label == l) with
    | some l => some (.excludedOffered l)
    | none =>
      let extra := extraLabels c items
      if c.mode == .exact && !extra.isEmpty then some (.extraOffered extra) else none

/-- The first difference between what is offered, if anything, and a case. -/
def mismatch? (c : Case) (offered : Option (List Offered)) : Option Mismatch :=
  match c.mode, offered with
  | .empty, none => none
  | .empty, some items => some (.somethingOffered (items.map (·.label)))
  | _, none => some .nothingOffered
  | _, some items => mismatchIn? c items

/-- What is offered at the cursor of an input. -/
def offeredIn (input : Text) : Option (List Offered) := do
  let (text, pos) ← splitCursor? input
  let result ← Completion.complete (parseTree text) text pos
  return result.candidates.map fun c => ⟨c.label, c.category.name⟩

end Cases

end TypeqlAssist

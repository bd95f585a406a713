import TypeqlAssist.Completion.Result
import TypeqlAssist.Editor.Config
import TypeqlAssist.Editor.Position

/-!
# Completion items

Items are ranked by boost, highest first, and candidates of equal boost keep their order. The sort
key of an item spells out its rank, so that a client that sorts by it keeps the order.
-/

namespace TypeqlAssist

namespace Editor

open Completion (Category Candidate Result)

/-- How an item's new text is to be read. -/
inductive Format where
  | plain
  | snippet
  deriving DecidableEq, Repr, Inhabited

/-- The number by which an editor knows a format. -/
def Format.code : Format → Nat
  | plain => 1
  | snippet => 2

/-- A completion item. -/
structure Item where
  label : String
  category : Category
  detail : Option String
  sortText : String
  format : Format
  range : Range
  newText : String
  deriving DecidableEq, Repr, Inhabited

/-- The number by which an editor knows the kind of an item. -/
def itemKind : Category → Nat
  | .typeLabel => 7
  | .variableName => 6
  | .thingConstraint => 14
  | .typeConstraint => 14
  | .keyword => 14
  | .rootKind => 22
  | .template => 15

/-- The number of empty blocks in a template. -/
def blockCount : Text → Nat
  | [] => 0
  | '{' :: '}' :: cs => blockCount cs + 1
  | _ :: cs => blockCount cs

/-- A template with tab stops in its blocks, numbered from `index` unless there is only one. -/
def fillBlocks (single : Bool) : (index : Nat) → Text → Text
  | _, [] => []
  | i, '{' :: '}' :: cs =>
    "\x7b $".toList ++ (toString (if single then 0 else i)).toList ++ " \x7d".toList ++
      fillBlocks single (i + 1) cs
  | i, c :: cs => c :: fillBlocks single i cs

/-- The snippet of a template; a text without blocks is none. -/
def snippet? (template : String) : Option String :=
  let count := blockCount template.toList
  if count = 0 then none else some (String.ofList (fillBlocks (count == 1) 1 template.toList))

/-- A natural in decimal digits, filled up with zeros to a width. -/
def padded (width n : Nat) : String :=
  let ds := Nat.toDigits 10 n
  String.ofList (List.replicate (width - ds.length) '0' ++ ds)

/-- The sort key of an item: smaller for a higher boost, then by rank. -/
def sortText (boost : Int) (rank : Nat) : String :=
  let inverted := (max 0 (min 9999 (5000 - boost))).toNat
  padded 4 inverted ++ "_" ++ padded 10 rank

/-- The candidates by descending boost, those of equal boost in their order. -/
def ranked (candidates : List Candidate) : List Candidate :=
  candidates.mergeSort fun a b => decide (b.boost ≤ a.boost)

/-- The item of a candidate at a rank, which replaces a range. -/
def itemOf (config : Config) (range : Range) (c : Candidate) (rank : Nat) : Item :=
  let snippet := if config.snippets then snippet? c.insertText else none
  { label := c.label
    category := c.category
    detail := c.info
    sortText := sortText c.boost rank
    format := if snippet.isSome then .snippet else .plain
    range
    newText := snippet.getD c.insertText }

/-- The items of a result that was computed at a cursor. -/
def render (config : Config) (text : Text) (cursor : Nat) (result : Result) : List Item :=
  let range := rangeOf text result.replaceFrom cursor
  ((ranked result.candidates).take config.maxItems).mapIdx fun rank c => itemOf config range c rank

end Editor

end TypeqlAssist

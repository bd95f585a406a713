import TypeqlAssist.Text.Quoted

/-!
# Assertions on labels

Short checks of a list of labels, each with the message that reports its failure.
-/

namespace TypeqlAssist

namespace Cases

/-- What is asserted of the labels offered. -/
inductive Assertion where
  | contains (labels : List String)
  | excludes (labels : List String)
  | exact (labels : List String)
  | orderedBefore (first second : String)
  deriving DecidableEq, Repr

/-- Labels in the order of their characters. -/
def sortedLabels (labels : List String) : List String :=
  labels.mergeSort fun a b => !(b < a)

/-- The failure of an assertion that two labels are ordered. -/
def orderFailure? (labels : List String) (first second : String) : Option String :=
  let absent (label : String) :=
    some ("'" ++ label ++ "' not among completions " ++ Text.quotedList labels)
  match labels.idxOf? first, labels.idxOf? second with
  | none, _ => absent first
  | _, none => absent second
  | some i, some j =>
    if i < j then none
    else
      some ("Expected '" ++ first ++ "' before '" ++ second ++ "' in " ++ Text.quotedList labels)

/-- The message of the failure of an assertion, if it fails. -/
def Assertion.failure? (a : Assertion) (labels : List String) : Option String :=
  match a with
  | contains expected =>
    (expected.find? fun l => !labels.contains l).map fun l =>
      "Expected '" ++ l ++ "' among completions " ++ Text.quotedList labels
  | excludes excluded =>
    (excluded.find? fun l => labels.contains l).map fun l =>
      "Did not expect '" ++ l ++ "' among completions " ++ Text.quotedList labels
  | exact expected =>
    let left := sortedLabels labels
    let right := sortedLabels expected
    if left == right then none
    else
      some ("assertion `left == right` failed: Completion labels mismatch\n  left: " ++
        Text.quotedList left ++ "\n right: " ++ Text.quotedList right)
  | orderedBefore first second => orderFailure? labels first second

end Cases

end TypeqlAssist

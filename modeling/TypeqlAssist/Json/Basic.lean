/-!
# JSON values

Numbers keep how they were written, since a count must be written as a plain integer.
-/

namespace TypeqlAssist

/-- A JSON number: `digits * 10 ^ exponent`, negated if `negative`. -/
structure Json.Number where
  negative : Bool
  digits : Nat
  exponent : Int
  /-- The number was written without a point and without an exponent. -/
  isPlain : Bool
  deriving DecidableEq, Repr, Inhabited

/-- A JSON value. An object keeps its fields in the order in which they were written. -/
inductive Json where
  | null
  | bool (value : Bool)
  | number (value : Json.Number)
  | string (value : String)
  | array (items : List Json)
  | object (fields : List (String × Json))
  deriving Repr, Inhabited

namespace Json

/-- The number of a count. -/
def ofNat (n : Nat) : Json :=
  .number ⟨false, n, 0, true⟩

/-- The number of an integer. -/
def ofInt (i : Int) : Json :=
  .number ⟨i < 0, i.natAbs, 0, true⟩

/-- The value of an optional part, `null` when it is absent. -/
def ofOption {α : Type} (encode : α → Json) : Option α → Json
  | none => null
  | some a => encode a

/-- The value of a list. -/
def ofList {α : Type} (encode : α → Json) (items : List α) : Json :=
  array (items.map encode)

/-- The value of the last field with a given name. -/
def field? : Json → String → Option Json
  | object fields, name => (fields.reverse.find? (·.1 == name)).map (·.2)
  | _, _ => none

end Json

end TypeqlAssist

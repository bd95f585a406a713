import TypeqlAssist.Kind

/-!
# Tokens

A token is a kind with the byte span it covers.
-/

namespace TypeqlAssist

/-- A token of a document, from byte `start` up to byte `stop`. -/
structure Token where
  kind : Kind
  start : Nat
  stop : Nat
  deriving DecidableEq, Repr, Inhabited

end TypeqlAssist

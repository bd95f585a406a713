/-!
# Distinct elements

The elements of a list without repetitions, where the first of several equal ones is kept.
-/

namespace TypeqlAssist

/-- The elements with distinct keys, each at the place where its key occurs first. -/
def distinctBy {α β : Type} [BEq β] (key : α → β) : List α → List α
  | [] => []
  | a :: as => a :: (distinctBy key as).filter fun b => key b != key a

/-- The distinct elements in the order of their first occurrence. -/
def distinct {α : Type} [BEq α] (as : List α) : List α :=
  distinctBy id as

end TypeqlAssist

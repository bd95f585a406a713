import TypeqlAssist.Text.Extending
import TypeqlAssist.Text.Unprinted

/-!
# Printable characters

A character is printed as it is unless it shows nothing of its own, or is a mark that would change
the look of the character before it.
-/

namespace TypeqlAssist

namespace Text

/-- A number lies in one of several ranges, ends included. -/
def inRanges (ranges : List (Nat × Nat)) (n : Nat) : Bool :=
  ranges.any fun r => r.1 ≤ n && n ≤ r.2

/-- A character has no shape. -/
def isUnprinted (c : Char) : Bool :=
  inRanges unprintedBasic c.toNat || inRanges unprintedSupplementary c.toNat

/-- A character extends the one before it. -/
def isExtending (c : Char) : Bool :=
  inRanges extendingBasic c.toNat || inRanges extendingSupplementary c.toNat

/-- A character is printed as it is. -/
def isPrintable (c : Char) : Bool :=
  !isUnprinted c && !isExtending c

end Text

end TypeqlAssist

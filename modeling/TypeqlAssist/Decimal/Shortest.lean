import TypeqlAssist.Decimal.Binary

/-!
# Shortest decimals

A binary number of 53 digits is written with the fewest decimal digits that read back as the same
number.
-/

namespace TypeqlAssist

namespace Decimal

/-- The number of decimal digits. -/
def digitCount (n : Nat) : Nat :=
  (Nat.toDigits 10 n).length

/-- How often a fraction below one must be multiplied by ten to reach one, at most `fuel` times. -/
def leadingZeros : (fuel num den : Nat) → Nat
  | 0, _, _ => 0
  | fuel + 1, num, den => if den ≤ num then 0 else leadingZeros fuel (num * 10) den + 1

/-- The place `p` with `10 ^ (p - 1) ≤ num / den < 10 ^ p`. -/
def decimalPlace (num den : Nat) : Int :=
  if den ≤ num then digitCount (num / den) else 1 - (leadingZeros 400 num den : Int)

/-- The two decimals of `n` digits around a fraction. -/
def neighbours (num den n : Nat) : Scientific × Scientific :=
  let e := decimalPlace num den - n
  let (a, b) := scaled 10 num den e
  (⟨a / b, e⟩, ⟨a / b + 1, e⟩)

/-- The lower of the two decimals around a fraction is the nearer one; of two as near, the even. -/
def lowerIsNearer (num den n : Nat) : Bool :=
  let (a, b) := scaled 10 num den (decimalPlace num den - n)
  2 * (a % b) < b || (2 * (a % b) == b && (a / b) % 2 == 0)

/-- The decimal of `n` digits that reads back as the number, the nearer of two. -/
def reading? (b : Binary) (n : Nat) : Option Scientific :=
  let (num, den) := b.fraction
  let (low, high) := neighbours num den n
  match Binary.ofScientific low == b, Binary.ofScientific high == b with
  | true, true => some (if lowerIsNearer num den n then low else high)
  | true, false => some low
  | false, true => some high
  | false, false => none

/-- The same decimal without zeros at the end of its digits. -/
def Scientific.withoutZeros (s : Scientific) : Scientific :=
  if s.digits = 0 ∨ s.digits % 10 ≠ 0 then s
  else Scientific.withoutZeros ⟨s.digits / 10, s.exponent + 1⟩
termination_by s.digits
decreasing_by omega

/-- The shortest decimal that reads back as the number; 17 digits always do. -/
def shortest (b : Binary) : Scientific :=
  if b.mantissa = 0 then ⟨0, 0⟩
  else (((List.range 17).findSome? fun n => reading? b (n + 1)).getD ⟨0, 0⟩).withoutZeros

end Decimal

end TypeqlAssist

/-!
# Binary numbers of 53 digits

A fraction is rounded to the nearest such number, and so is every product and quotient.
Everything is exact arithmetic on naturals.
-/

namespace TypeqlAssist

namespace Decimal

/-- The number `mantissa * 2 ^ exponent`. -/
structure Binary where
  mantissa : Nat
  exponent : Int
  deriving DecidableEq, Repr, Inhabited

/-- The number `digits * 10 ^ exponent`. -/
structure Scientific where
  digits : Nat
  exponent : Int
  deriving DecidableEq, Repr, Inhabited

/-- A quotient rounded to the nearest natural, a half to the even one. -/
def roundQuotient (num den : Nat) : Nat :=
  let q := num / den
  let twice := 2 * (num % den)
  if twice < den then q else if den < twice then q + 1 else q + q % 2

/-- The fraction `num / den * base ^ (-e)`. -/
def scaled (base : Nat) (num den : Nat) (e : Int) : Nat × Nat :=
  if 0 ≤ e then (num, den * Nat.pow base e.toNat) else (num * Nat.pow base (-e).toNat, den)

/-- The exponent `e` with `2 ^ e ≤ num / den < 2 ^ (e + 1)`. -/
def binaryLog (num den : Nat) : Int :=
  let e : Int := (Nat.log2 num : Int) - Nat.log2 den
  let (n, d) := scaled 2 num den e
  if d ≤ n then e else e - 1

/-- The least exponent of a binary number. -/
def leastExponent : Int := -1074

/-- The binary number nearest to a fraction. -/
def Binary.ofFraction (num den : Nat) : Binary :=
  if num = 0 then ⟨0, leastExponent⟩
  else
    let e := max (binaryLog num den - 52) leastExponent
    let (n, d) := scaled 2 num den e
    let m := roundQuotient n d
    if m = Nat.pow 2 53 then ⟨Nat.pow 2 52, e + 1⟩ else ⟨m, e⟩

/-- A binary number as a fraction. -/
def Binary.fraction (b : Binary) : Nat × Nat :=
  if 0 ≤ b.exponent then (b.mantissa * Nat.pow 2 b.exponent.toNat, 1)
  else (b.mantissa, Nat.pow 2 (-b.exponent).toNat)

/-- A decimal number as a fraction. -/
def Scientific.fraction (s : Scientific) : Nat × Nat :=
  if 0 ≤ s.exponent then (s.digits * Nat.pow 10 s.exponent.toNat, 1)
  else (s.digits, Nat.pow 10 (-s.exponent).toNat)

/-- The binary number nearest to a decimal one. -/
def Binary.ofScientific (s : Scientific) : Binary :=
  Binary.ofFraction s.fraction.1 s.fraction.2

/-- The product, rounded. -/
def Binary.mul (a b : Binary) : Binary :=
  Binary.ofFraction (a.fraction.1 * b.fraction.1) (a.fraction.2 * b.fraction.2)

/-- The quotient, rounded. -/
def Binary.div (a b : Binary) : Binary :=
  Binary.ofFraction (a.fraction.1 * b.fraction.2) (a.fraction.2 * b.fraction.1)

/-- A power of ten, rounded. -/
def Binary.powerOfTen (n : Nat) : Binary :=
  Binary.ofFraction (Nat.pow 10 n) 1

/-- The largest power of ten that is below all limits. -/
def largestPower : Nat := 308

/-- The quotient by a power of ten, taken in steps of the largest one and rounded at each. -/
def Binary.divPower (b : Binary) (n : Nat) : Binary :=
  if b.mantissa = 0 then b
  else if n ≤ largestPower then b.div (powerOfTen n)
  else (b.div (powerOfTen largestPower)).divPower (n - largestPower)
termination_by n
decreasing_by simp only [largestPower] at *; omega

/-- A decimal whose digits are cut to those that make up a number below a bound. -/
def Scientific.cutBelow (bound : Nat) (s : Scientific) : Scientific :=
  if s.digits < bound ∨ s.digits = 0 then s
  else Scientific.cutBelow bound ⟨s.digits / 10, s.exponent + 1⟩
termination_by s.digits
decreasing_by omega

/--
A decimal read the quick way: the digits that a machine word holds, times or by a power of ten. The
digits, the power and the result are rounded in turn, so the result may be next to the nearest.
-/
def Binary.ofDigits (s : Scientific) : Binary :=
  let s := s.cutBelow (Nat.pow 2 64)
  let digits := Binary.ofFraction s.digits 1
  if 0 ≤ s.exponent then digits.mul (powerOfTen s.exponent.toNat)
  else digits.divPower (-s.exponent).toNat

end Decimal

end TypeqlAssist

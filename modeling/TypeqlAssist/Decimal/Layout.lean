import TypeqlAssist.Decimal.Binary

/-!
# Decimals as text

A decimal is written positionally or with an exponent, by the power of ten of its first digit. The
positional form has one place behind the point at least; the exponent always has a sign.
-/

namespace TypeqlAssist

namespace Decimal

/-- Which powers of ten are written positionally: from `least` on and below `bound`. -/
structure Layout where
  least : Int
  bound : Int
  deriving DecidableEq, Repr

/-- A decimal without exponent. -/
def positional (s : Scientific) : String :=
  let ds := Nat.toDigits 10 s.digits
  if 0 ≤ s.exponent then
    String.ofList (ds ++ List.replicate s.exponent.toNat '0') ++ ".0"
  else
    let places := (-s.exponent).toNat
    let padded := List.replicate (places + 1 - ds.length) '0' ++ ds
    let whole := padded.length - places
    String.ofList (padded.take whole) ++ "." ++ String.ofList (padded.drop whole)

/-- The power of ten of the first digit. -/
def Scientific.magnitude (s : Scientific) : Int :=
  s.exponent + (Nat.toDigits 10 s.digits).length - 1

/-- A decimal with one digit in front of the point and the power of ten behind its digits. -/
def exponential (s : Scientific) : String :=
  let ds := Nat.toDigits 10 s.digits
  let fraction := if ds.length ≤ 1 then [] else '.' :: ds.drop 1
  let sign := if s.magnitude < 0 then "-" else "+"
  String.ofList (ds.take 1 ++ fraction) ++ "e" ++ sign ++ toString s.magnitude.natAbs

/-- The text of a decimal; zero is written positionally. -/
def Layout.text (l : Layout) (s : Scientific) : String :=
  if s.digits = 0 || (l.least ≤ s.magnitude && s.magnitude < l.bound) then positional s
  else exponential s

end Decimal

end TypeqlAssist

import RevisionGraph.Decimal.Shortest

/-!
# The text of a decimal

A `Layout` says which magnitudes are written with a point among the digits and which with an
exponent.
-/

namespace RevisionGraph

/-- The exponents, of the leading digit, that are written positionally. -/
structure Layout where
  leastPositional : Int
  greatestPositional : Int

namespace Layout

/-- Digits with the point `point` places after the first of them. -/
def positional (digits : List Char) (point : Int) : List Char :=
  if point ≤ 0 then '0' :: '.' :: (List.replicate (-point).toNat '0' ++ digits)
  else
    let whole := digits.take point.toNat
    let fraction := digits.drop point.toNat
    whole ++ List.replicate (point.toNat - digits.length) '0' ++ '.' ::
      (if fraction.isEmpty then ['0'] else fraction)

def scientific (digits : List Char) (exponent : Int) : List Char :=
  let sign := if exponent < 0 then '-' else '+'
  let fraction := digits.drop 1
  digits.take 1 ++ (if fraction.isEmpty then [] else '.' :: fraction) ++
    'e' :: sign :: naturalDigits exponent.natAbs

def write (layout : Layout) (d : Decimal) : List Char :=
  let digits := naturalDigits d.mantissa
  let leading := d.exponent + digits.length - 1
  if d.mantissa = 0 then ['0', '.', '0']
  else if layout.leastPositional ≤ leading ∧ leading ≤ layout.greatestPositional then
    positional digits (leading + 1)
  else scientific digits leading

end Layout

end RevisionGraph

import RevisionGraph.Text.Integer

/-!
# The shortest decimal of a binary fraction

`shortest b` is the decimal with the fewest digits that lies nearer to `b` than to its neighbours
among the doubles, and of those the one closest to `b`.
-/

namespace RevisionGraph

/-- `mantissa * 2 ^ exponent` -/
structure Binary where
  mantissa : Nat
  exponent : Int
  deriving DecidableEq, Repr

/-- `mantissa * 10 ^ exponent` -/
structure Decimal where
  mantissa : Nat
  exponent : Int
  deriving DecidableEq, Repr

namespace Binary

def fractionBits : Nat := 52

def leastExponent : Int := -1074

/-- The magnitude of a finite double, from its bits. -/
def ofBits (bits : Nat) : Binary :=
  let fraction : Nat := bits % 1 <<< fractionBits
  let field : Nat := bits >>> fractionBits % 1 <<< 11
  if field = 0 then ⟨fraction, leastExponent⟩
  else ⟨1 <<< fractionBits + fraction, leastExponent + field - 1⟩

/-- The quarter units from `b` down to the middle of the gap below it. The gap is half as wide where
the exponent changes. -/
def below (b : Binary) : Nat :=
  if b.mantissa = 1 <<< fractionBits ∧ leastExponent < b.exponent then 1 else 2

/-- The quarter units from `b` up to the middle of the gap above it. -/
def above : Nat := 2

/-- Compares `n * 10 ^ k` with `quarters * 2 ^ (exponent - 2)`. -/
def compareDecimal (n : Nat) (k : Int) (quarters : Nat) (exponent : Int) : Ordering :=
  compare ((n * Nat.pow 10 k.toNat) <<< (2 - exponent).toNat)
    ((quarters * Nat.pow 10 (-k).toNat) <<< (exponent - 2).toNat)

/-- Whether `n * 10 ^ k` is read as `b`: the middle of a gap goes to the even mantissa. -/
def rounds (b : Binary) (n : Nat) (k : Int) : Bool :=
  let low := compareDecimal n k (4 * b.mantissa - b.below) b.exponent
  let high := compareDecimal n k (4 * b.mantissa + above) b.exponent
  (low == .gt || (low == .eq && b.mantissa % 2 == 0)) &&
    (high == .lt || (high == .eq && b.mantissa % 2 == 0))

/-- The multiple of `10 ^ k` at or below `b`, as a factor. -/
def floorAt (b : Binary) (k : Int) : Nat :=
  (b.mantissa * Nat.pow 10 (-k).toNat) <<< b.exponent.toNat /
    Nat.pow 10 k.toNat <<< (-b.exponent).toNat

/-- Whether `n + 1` is closer to `b` than `n` on the grid of `10 ^ k`; a tie goes to the even
one. -/
def prefersNext (b : Binary) (n : Nat) (k : Int) : Bool :=
  match compareDecimal (2 * n + 1) k (8 * b.mantissa) b.exponent with
  | .lt => true
  | .eq => n % 2 == 1
  | .gt => false

/-- The best factor on the grid of `10 ^ k`, if one of the two neighbours of `b` is read as `b`. -/
def candidate? (b : Binary) (k : Int) : Option Nat :=
  let n := b.floorAt k
  match b.rounds n k, b.rounds (n + 1) k with
  | true, true => some (if b.prefersNext n k then n + 1 else n)
  | true, false => some n
  | false, true => some (n + 1)
  | false, false => none

/-- Goes from the grid of `10 ^ k` to finer ones until a candidate is found. -/
def search (b : Binary) (k : Int) : Nat → Decimal
  | 0 => ⟨b.floorAt k, k⟩
  | steps + 1 =>
    match b.candidate? k with
    | some n => ⟨n, k⟩
    | none => b.search (k - 1) steps

/-- An exponent of ten above the magnitude of every double that is at least one. -/
def topExponent (b : Binary) : Int := (naturalDigits (b.floorAt 0)).length

def shortest (b : Binary) : Decimal := b.search b.topExponent 1000

end Binary

end RevisionGraph

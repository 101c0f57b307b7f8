import RevisionGraph.Decimal.Layout

/-!
# Numbers of a document

A literal without fraction and exponent that fits a 64-bit word, signed or not, is a whole number;
every other literal is a double. A double is computed from the leading digits that fit 64 bits by
one multiplication or division by a power of ten, so it need not be the double closest to the
literal; a literal too large for a double has no value.
-/

namespace RevisionGraph.Json

/-- An integer that fits a signed or an unsigned 64-bit word. -/
structure Whole where
  val : Int
  lower : Int64.minValue.toInt ≤ val
  upper : val < UInt64.size
  deriving DecidableEq, Repr

namespace Whole

def ofInt? (i : Int) : Option Whole :=
  if h : Int64.minValue.toInt ≤ i ∧ i < UInt64.size then some ⟨i, h.1, h.2⟩ else none

def ofInt64 (i : Int64) : Whole where
  val := i.toInt
  lower := i.minValue_le_toInt
  upper := by have := i.toInt_lt; simp only [UInt64.size]; omega

def ofUInt64 (n : UInt64) : Whole where
  val := n.toNat
  lower := by simp only [Int64.toInt_minValue]; omega
  upper := by have := n.toNat_lt_size; omega

def toInt64? (n : Whole) : Option Int64 := int64? n.val

def toUInt64? (n : Whole) : Option UInt64 := uint64? n.val

theorem toInt64?_ofInt64 (i : Int64) : (ofInt64 i).toInt64? = some i := int64?_toInt i

theorem toUInt64?_ofUInt64 (n : UInt64) : (ofUInt64 n).toUInt64? = some n := uint64?_toNat n

end Whole

inductive Number where
  | whole (n : Whole)
  | float (x : Float)
  deriving Repr

namespace Number

/-- Doubles are compared as doubles, so `0.0` equals `-0.0`. -/
def beq : Number → Number → Bool
  | .whole m, .whole n => decide (m = n)
  | .float x, .float y => x == y
  | _, _ => false

instance : BEq Number := ⟨beq⟩

/-- Doubles from `1e-5` on and below `1e16` are written with a point, all others with an
exponent. -/
def layout : Layout := ⟨-5, 15⟩

def floatChars (x : Float) : List Char :=
  let bits := x.toBits.toNat
  let magnitude := layout.write (Binary.ofBits bits).shortest
  if 1 <<< 63 ≤ bits then '-' :: magnitude else magnitude

def chars : Number → List Char
  | .whole n => integerChars n.val
  | .float x => floatChars x

end Number

/-- A number literal by its digits. -/
structure Numeral where
  negative : Bool
  whole : List Char
  fraction : Option (List Char)
  exponent : Option Int
  deriving DecidableEq, Repr

namespace Numeral

def readExponent? : List Char → Option (Option Int)
  | [] => some none
  | mark :: rest =>
    if mark = 'e' ∨ mark = 'E' then (readInteger? rest).map some else none

def readFraction? (negative : Bool) (whole : List Char) : List Char → Option Numeral
  | '.' :: rest =>
    let fraction := rest.takeWhile Char.isDigit
    if fraction.isEmpty then none
    else (readExponent? (rest.dropWhile Char.isDigit)).map (⟨negative, whole, some fraction, ·⟩)
  | rest => (readExponent? rest).map (⟨negative, whole, none, ·⟩)

/-- Reads digits that are `0` alone or do not start with `0`. -/
def readWhole? (negative : Bool) (text : List Char) : Option Numeral :=
  match text.takeWhile Char.isDigit with
  | [] => none
  | '0' :: _ :: _ => none
  | whole => readFraction? negative whole (text.dropWhile Char.isDigit)

def read? : List Char → Option Numeral
  | '-' :: rest => readWhole? true rest
  | rest => readWhole? false rest

/-- Appends digits to `significand` as long as it fits a word, and gives the digits left over. -/
def gather (significand : Nat) : List Char → Nat × List Char
  | [] => (significand, [])
  | c :: rest =>
    let next := 10 * significand + (c.toNat - '0'.toNat)
    if next < UInt64.size then gather next rest else (significand, c :: rest)

def greatestPower : Int := 308

def powerOfTen (k : Nat) : Float := Float.ofScientific 1 false k

/-- `x * 10 ^ exponent`, unless that is too large for a double. -/
def scale? (x : Float) (exponent : Int) : Option Float :=
  if exponent.natAbs ≤ greatestPower then
    if 0 ≤ exponent then
      let product := x * powerOfTen exponent.natAbs
      if product.isInf then none else some product
    else some (x / powerOfTen exponent.natAbs)
  else if x == 0 then some x
  else if 0 ≤ exponent then none
  else scale? (x / powerOfTen greatestPower.toNat) (exponent + greatestPower)
termination_by (-exponent).toNat
decreasing_by simp only [greatestPower] at *; omega

/-- Exponents at or beyond this one are not computed with. -/
def exponentLimit : Nat := 1 <<< 31

def magnitude? (n : Numeral) : Option Float :=
  let (significand, dropped) := gather 0 n.whole
  let fraction := n.fraction.getD []
  let (significand, unread) := gather significand fraction
  let shift : Int := dropped.length - (fraction.length - unread.length)
  let exponent := n.exponent.getD 0
  if exponentLimit ≤ exponent.natAbs then
    if significand ≠ 0 ∧ 0 < exponent then none else some 0
  else scale? (UInt64.ofNat significand).toFloat (shift + exponent)

def integer? (n : Numeral) : Option Whole :=
  match n.fraction, n.exponent with
  | none, none =>
    let value := digitsValue n.whole
    if n.negative then if value = 0 then none else Whole.ofInt? (-(value : Int))
    else Whole.ofInt? value
  | _, _ => none

def value? (n : Numeral) : Option Number :=
  match n.integer? with
  | some whole => some (.whole whole)
  | none => n.magnitude?.map fun x => .float (if n.negative then -x else x)

end Numeral

end RevisionGraph.Json

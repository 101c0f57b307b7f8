/-!
# Integers in decimal

An integer is written with the fewest digits. It is read from one optional sign and at least one
ASCII digit, so `+7`, `007` and `-0` are read too.
-/

namespace RevisionGraph

/-- The value of a list of digits, the highest first. -/
def digitsValue (digits : List Char) : Nat := Nat.ofDigitChars 10 digits 0

def naturalDigits (n : Nat) : List Char := Nat.toDigits 10 n

theorem digitsValue_naturalDigits (n : Nat) : digitsValue (naturalDigits n) = n :=
  Nat.ofDigitChars_toDigits (by decide) (by decide)

def integerChars (i : Int) : List Char :=
  if i < 0 then '-' :: naturalDigits i.natAbs else naturalDigits i.natAbs

def integerText (i : Int) : String := String.ofList (integerChars i)

def readNatural? (text : List Char) : Option Nat :=
  if !text.isEmpty && text.all Char.isDigit then some (digitsValue text) else none

def readInteger? : List Char → Option Int
  | '-' :: digits => (readNatural? digits).map fun n => -Int.ofNat n
  | '+' :: digits => (readNatural? digits).map Int.ofNat
  | digits => (readNatural? digits).map Int.ofNat

def hexDigit? (c : Char) : Option Nat :=
  if c.isDigit then some (c.toNat - '0'.toNat)
  else if 'a' ≤ c ∧ c ≤ 'f' then some (c.toNat - 'a'.toNat + 10)
  else if 'A' ≤ c ∧ c ≤ 'F' then some (c.toNat - 'A'.toNat + 10)
  else none

/-- `i` as a word, if it fits. -/
def int64? (i : Int) : Option Int64 :=
  if Int64.minValue.toInt ≤ i ∧ i ≤ Int64.maxValue.toInt then some (Int64.ofInt i) else none

def uint64? (i : Int) : Option UInt64 :=
  if 0 ≤ i ∧ i < UInt64.size then some (UInt64.ofNat i.toNat) else none

/-- Reads the decimal text of a 64-bit id. -/
def readId? (text : String) : Option Int64 := (readInteger? text.toList).bind int64?

def idText (id : Int64) : String := integerText id.toInt

theorem isDigit_of_mem_naturalDigits {n : Nat} {c : Char} (mem : c ∈ naturalDigits n) :
    c.isDigit = true :=
  Nat.isDigit_of_mem_toDigits (by decide) (by decide) mem

theorem minus_or_isDigit_of_mem_integerChars {i : Int} {c : Char} (mem : c ∈ integerChars i) :
    c = '-' ∨ c.isDigit = true := by
  unfold integerChars at mem
  split at mem
  · exact (List.mem_cons.1 mem).imp_right isDigit_of_mem_naturalDigits
  · exact .inr (isDigit_of_mem_naturalDigits mem)

theorem int64?_toInt (id : Int64) : int64? id.toInt = some id := by
  rw [int64?, if_pos ⟨id.minValue_le_toInt, id.toInt_le⟩, Int64.ofInt_toInt]

theorem uint64?_toNat (n : UInt64) : uint64? n.toNat = some n := by
  have bound := n.toNat_lt_size
  rw [uint64?, if_pos (by omega), Int.toNat_natCast, UInt64.ofNat_toNat]

theorem readNatural?_naturalDigits (n : Nat) : readNatural? (naturalDigits n) = some n := by
  have digits : (naturalDigits n).all Char.isDigit = true :=
    List.all_eq_true.2 fun _ => isDigit_of_mem_naturalDigits
  have some_digit : naturalDigits n ≠ [] := Nat.toDigits_ne_nil
  simp [readNatural?, digits, some_digit, digitsValue_naturalDigits]

theorem readInteger?_integerChars (i : Int) : readInteger? (integerChars i) = some i := by
  unfold integerChars
  split
  · simp only [readInteger?, readNatural?_naturalDigits, Option.map_some, Option.some.injEq,
      Int.ofNat_eq_natCast]
    omega
  · have read := readNatural?_naturalDigits i.natAbs
    have nonneg : (i.natAbs : Int) = i := by omega
    have digits : ∀ c ∈ naturalDigits i.natAbs, c.isDigit = true :=
      fun _ => isDigit_of_mem_naturalDigits
    generalize naturalDigits i.natAbs = ds at read digits
    unfold readInteger?
    split
    · exact absurd (digits '-' List.mem_cons_self) (by decide)
    · exact absurd (digits '+' List.mem_cons_self) (by decide)
    · rw [read, Option.map_some, Int.ofNat_eq_natCast, nonneg]

/-- Every id reads back from its text. -/
theorem readId?_idText (id : Int64) : readId? (idText id) = some id := by
  simp [readId?, idText, integerText, readInteger?_integerChars, int64?_toInt]

end RevisionGraph

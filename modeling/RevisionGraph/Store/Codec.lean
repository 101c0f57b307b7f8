import RevisionGraph.Summary
import RevisionGraph.Text.Runes

/-!
# Values as bytes

A store on disk relies on one thing of the bytes that it keeps: a `Codec` reads back what it writes.
`Summary.codec` writes the fields of a summary one after the other, words with their lowest byte
first and texts behind their lengths.
-/

namespace RevisionGraph

structure Codec (α : Type) where
  encode : α → List UInt8
  decode? : List UInt8 → Option α
  decode?_encode : ∀ a, decode? (encode a) = some a

/-! ### Bytes that others may follow -/

/-- Reads one value and gives the bytes behind it. -/
structure PrefixCodec (α : Type) where
  write : α → List UInt8
  take? : List UInt8 → Option (α × List UInt8)
  take?_write : ∀ a rest, take? (write a ++ rest) = some (a, rest)

/-- The lowest digits of a number in base 256, the lowest first. -/
def digitBytes (n : Nat) : Nat → List UInt8
  | 0 => []
  | digits + 1 => .ofNat n :: digitBytes (n / 256) digits

def takeDigits? : Nat → List UInt8 → Option (Nat × List UInt8)
  | 0, bytes => some (0, bytes)
  | _ + 1, [] => none
  | digits + 1, byte :: bytes =>
    (takeDigits? digits bytes).map fun (high, rest) => (byte.toNat + 256 * high, rest)

theorem takeDigits?_digitBytes {n digits : Nat} (fits : n < Nat.pow 256 digits)
    (rest : List UInt8) : takeDigits? digits (digitBytes n digits ++ rest) = some (n, rest) := by
  induction digits generalizing n with
  | zero =>
    rw [Nat.lt_one_iff.1 fits]
    rfl
  | succ digits ih =>
    have high : n / 256 < Nat.pow 256 digits := (Nat.div_lt_iff_lt_mul (by decide)).2 fits
    rw [digitBytes, List.cons_append, takeDigits?, ih high, Option.map_some, UInt8.toNat_ofNat']
    exact congrArg (fun n => some (n, rest)) (Nat.mod_add_div n 256)

theorem length_of_takeDigits? {digits n : Nat} {bytes rest : List UInt8}
    (taken : takeDigits? digits bytes = some (n, rest)) : bytes.length = rest.length + digits := by
  induction digits generalizing n bytes with
  | zero =>
    cases taken
    rfl
  | succ digits ih =>
    cases bytes with
    | nil => cases taken
    | cons byte bytes =>
      obtain ⟨⟨high, others⟩, held, same⟩ := Option.map_eq_some_iff.1 taken
      cases same
      rw [List.length_cons, ih held, Nat.add_assoc]

def greatestWord : Nat := 0xFFFFFFFFFFFFFFFF

/-- A count is a word. One that is not below the greatest word is that word and the count of what
remains, so that there is no count that cannot be written. -/
def countBytes (n : Nat) : List UInt8 :=
  if n < greatestWord then digitBytes n 8
  else digitBytes greatestWord 8 ++ countBytes (n - greatestWord)
termination_by n
decreasing_by
  unfold greatestWord at *
  omega

def takeCount? (bytes : List UInt8) : Option (Nat × List UInt8) :=
  match _ : takeDigits? 8 bytes with
  | none => none
  | some (n, rest) =>
    if n < greatestWord then some (n, rest)
    else (takeCount? rest).map fun (more, rest) => (n + more, rest)
termination_by bytes.length
decreasing_by
  have length := length_of_takeDigits? ‹_›
  omega

theorem takeCount?_of_takeDigits? {bytes rest : List UInt8} {n : Nat}
    (taken : takeDigits? 8 bytes = some (n, rest)) :
    takeCount? bytes =
      if n < greatestWord then some (n, rest)
      else (takeCount? rest).map fun (more, rest) => (n + more, rest) := by
  rw [takeCount?]
  split <;> rename_i found
  · cases found.symm.trans taken
  · cases found.symm.trans taken
    rfl

theorem takeCount?_countBytes (n : Nat) (rest : List UInt8) :
    takeCount? (countBytes n ++ rest) = some (n, rest) := by
  induction n using countBytes.induct with
  | case1 n small =>
    have fits : n < Nat.pow 256 8 := Nat.lt_trans small (by decide)
    have word := takeDigits?_digitBytes fits rest
    rw [countBytes, if_pos small, takeCount?_of_takeDigits? word, if_pos small]
  | case2 n large ih =>
    have fits : greatestWord < Nat.pow 256 8 := by decide
    have word := takeDigits?_digitBytes fits (countBytes (n - greatestWord) ++ rest)
    have whole : greatestWord + (n - greatestWord) = n :=
      Nat.add_sub_cancel' (Nat.le_of_not_lt large)
    rw [countBytes, if_neg large, List.append_assoc, takeCount?_of_takeDigits? word,
      if_neg (Nat.lt_irrefl _), ih, Option.map_some]
    exact congrArg (fun n => some (n, rest)) whole

namespace PrefixCodec

variable {α β : Type}

/-- What stands behind the value is passed over. -/
def codec (c : PrefixCodec α) : Codec α where
  encode := c.write
  decode? bytes := (c.take? bytes).map Prod.fst
  decode?_encode a := by
    have taken := c.take?_write a []
    rw [List.append_nil] at taken
    rw [taken, Option.map_some]

def pair (first : PrefixCodec α) (second : PrefixCodec β) : PrefixCodec (α × β) where
  write both := first.write both.1 ++ second.write both.2
  take? bytes := do
    let (a, bytes) ← first.take? bytes
    let (b, rest) ← second.take? bytes
    return ((a, b), rest)
  take?_write both rest := by simp [first.take?_write, second.take?_write]

/-- Values are written as others, from which they are made again. -/
def iso (c : PrefixCodec α) (pack : α → β) (unpack : β → α) (same : ∀ b, pack (unpack b) = b) :
    PrefixCodec β where
  write b := c.write (unpack b)
  take? bytes := (c.take? bytes).map fun (a, rest) => (pack a, rest)
  take?_write b rest := by simp [c.take?_write, same]

def word : PrefixCodec UInt64 where
  write w := digitBytes w.toNat 8
  take? bytes := (takeDigits? 8 bytes).map fun (n, rest) => (.ofNat n, rest)
  take?_write w rest := by
    have fits : w.toNat < Nat.pow 256 8 := w.toNat_lt
    simp [takeDigits?_digitBytes fits]

def seconds : PrefixCodec Int64 := word.iso UInt64.toInt64 Int64.toUInt64 Int64.toInt64_toUInt64

/-- The bytes of a text behind their number. -/
def text : PrefixCodec String where
  write s := countBytes (textBytes s).length ++ textBytes s
  take? bytes := do
    let (length, bytes) ← takeCount? bytes
    if bytes.length < length then none
    else return (← String.fromUTF8? (bytes.take length).toByteArray, bytes.drop length)
  take?_write s rest := by simp [takeCount?_countBytes, fromUTF8?_textBytes]

/-- The fields in order. -/
def summary : PrefixCodec Summary :=
  let counts := word.pair <| word.pair <| word.pair <| word.pair <| word.pair <| word.pair word
  let fields := text.pair <| text.pair <| text.pair <| text.pair <| seconds.pair <| text.pair counts
  fields.iso
    (fun (uri, forge, product, version, timestamp, generator, nodeCount, internalTypes,
      externalTypes, resolvedTypes, internalCalls, externalCalls, resolvedCalls) =>
      { uri, forge, product, version, timestamp, generator, nodeCount, internalTypes, externalTypes,
        resolvedTypes, internalCalls, externalCalls, resolvedCalls })
    (fun s => (s.uri, s.forge, s.product, s.version, s.timestamp, s.generator, s.nodeCount,
      s.internalTypes, s.externalTypes, s.resolvedTypes, s.internalCalls, s.externalCalls,
      s.resolvedCalls))
    fun _ => rfl

end PrefixCodec

def Summary.codec : Codec Summary := PrefixCodec.summary.codec

end RevisionGraph

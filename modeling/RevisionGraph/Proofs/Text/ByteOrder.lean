import Mathlib.Data.String.Basic
import RevisionGraph.Text.Runes

/-!
# Byte order of texts

Texts are compared by their characters. By `textBytes_lt_iff` that is the order of their bytes.
-/

namespace RevisionGraph

/-- What is written for a number is lower than what is written for a greater one, whatever comes
next. -/
def Rising (bound : Nat) (write : Nat → List UInt8) : Prop :=
  ∀ m n, m < n → n < bound → ∀ rest rest', write m ++ rest < write n ++ rest'

/-- The first byte of a character. -/
def leadByte (mark n : Nat) : List UInt8 := [UInt8.ofNat (n + mark)]

/-- Appends the byte with the lowest six bits. -/
def continued (write : Nat → List UInt8) (n : Nat) : List UInt8 :=
  write (n / 64) ++ [UInt8.ofNat (n % 64 + 128)]

theorem byte_cons_lt {m n : Nat} (below : m < n) (fits : n < 256) (rest rest' : List UInt8) :
    UInt8.ofNat m :: rest < UInt8.ofNat n :: rest' := by
  have lower : UInt8.ofNat m < UInt8.ofNat n := by
    rw [UInt8.lt_iff_toNat_lt, UInt8.toNat_ofNat', UInt8.toNat_ofNat']
    omega
  exact List.cons_lt_cons_iff.2 (.inl lower)

theorem rising_leadByte {bound mark : Nat} (fits : bound + mark ≤ 256) :
    Rising bound (leadByte mark) :=
  fun _ _ below inside => byte_cons_lt (by omega) (by omega)

theorem Rising.continued {bound : Nat} {write : Nat → List UInt8} (rising : Rising bound write) :
    Rising (64 * bound) (continued write) := by
  intro m n below inside rest rest'
  unfold RevisionGraph.continued
  rw [List.append_assoc, List.append_assoc]
  have quotients : m / 64 ≤ n / 64 := Nat.div_le_div_right (Nat.le_of_lt below)
  rcases Nat.lt_or_eq_of_le quotients with lower | same
  · exact rising _ _ lower (by omega) _ _
  · rw [same]
    exact List.append_left_lt (byte_cons_lt (by omega) (by omega) _ _)

/-- Numbers below `limit` are written one way and the others another way. -/
theorem Rising.switch {limit bound : Nat} {write write' : Nat → List UInt8}
    (low : Rising limit write) (high : Rising bound write')
    (apart : ∀ m n, m < limit → limit ≤ n → n < bound → ∀ rest rest',
      write m ++ rest < write' n ++ rest') :
    Rising bound fun n => if n < limit then write n else write' n := by
  intro m n below inside rest rest'
  dsimp only
  split <;> rename_i first <;> split <;> rename_i second
  · exact low m n below second rest rest'
  · exact apart m n first (Nat.le_of_not_lt second) inside rest rest'
  · omega
  · exact high m n below inside rest rest'

/-- The bytes of the character with a number. -/
def numberBytes (n : Nat) : List UInt8 :=
  if n < 128 then leadByte 0 n
  else if n < 2048 then continued (leadByte 192) n
  else if n < 65536 then continued (continued (leadByte 224)) n
  else continued (continued (continued (leadByte 240))) n

theorem rising_numberBytes : Rising 2097152 numberBytes := by
  have one : Rising 128 (leadByte 0) := rising_leadByte (by decide)
  have two : Rising 32 (leadByte 192) := rising_leadByte (by decide)
  have three : Rising 16 (leadByte 224) := rising_leadByte (by decide)
  have four : Rising 8 (leadByte 240) := rising_leadByte (by decide)
  -- A character of more bytes starts with a higher one.
  refine one.switch (two.continued.switch
    (three.continued.continued.switch four.continued.continued.continued ?_) ?_) ?_
  · intro m n low high inside rest rest'
    exact byte_cons_lt (by omega) (by omega) _ _
  · intro m n low high inside rest rest'
    split <;> exact byte_cons_lt (by omega) (by omega) _ _
  · intro m n low high inside rest rest'
    split
    · exact byte_cons_lt (by omega) (by omega) _ _
    · split <;> exact byte_cons_lt (by omega) (by omega) _ _

theorem toNat_val_lt (c : Char) : c.val.toNat < 1114112 := by
  have valid := c.valid
  unfold UInt32.isValidChar Nat.isValidChar at valid
  omega

theorem utf8EncodeChar_eq (c : Char) : String.utf8EncodeChar c = numberBytes c.val.toNat := by
  have bound := toNat_val_lt c
  unfold String.utf8EncodeChar numberBytes
  dsimp only
  generalize c.val.toNat = n at bound
  simp only [← Nat.lt_succ_iff, continued, leadByte, Nat.div_div_eq_div_mul]
  split
  · rfl
  split
  · have high : n / 64 % 32 = n / 64 := Nat.mod_eq_of_lt (by omega)
    rw [high]
    rfl
  split
  · have high : n / 4096 % 16 = n / 4096 := Nat.mod_eq_of_lt (by omega)
    rw [high]
    rfl
  · have high : n / 262144 % 8 = n / 262144 := Nat.mod_eq_of_lt (by omega)
    rw [high]
    rfl

/-- Where the bytes of two characters first differ, the lower character has the lower byte. -/
theorem utf8EncodeChar_append_lt {c d : Char} (lower : c < d) (rest rest' : List UInt8) :
    String.utf8EncodeChar c ++ rest < String.utf8EncodeChar d ++ rest' := by
  have inside : d.val.toNat < 2097152 := by
    have bound := toNat_val_lt d
    omega
  rw [utf8EncodeChar_eq, utf8EncodeChar_eq]
  exact rising_numberBytes _ _ lower inside rest rest'

/-! ### Texts -/

theorem textBytes_eq (text : String) :
    textBytes text = text.toList.flatMap String.utf8EncodeChar := by
  unfold textBytes
  rw [String.toUTF8_eq_toByteArray, ← String.utf8Encode_toList, List.utf8Encode,
    List.data_toByteArray]

theorem flatMap_utf8EncodeChar_lt {cs ds : List Char} (lower : cs < ds) :
    cs.flatMap String.utf8EncodeChar < ds.flatMap String.utf8EncodeChar := by
  induction cs generalizing ds with
  | nil =>
    cases ds with
    | nil => exact absurd lower (lt_irrefl _)
    | cons d ds =>
      obtain ⟨byte, rest, written⟩ := List.exists_cons_of_ne_nil (@String.utf8EncodeChar_ne_nil d)
      rw [List.flatMap_nil, List.flatMap_cons, written]
      exact List.nil_lt_cons byte _
  | cons c cs ih =>
    cases ds with
    | nil => exact absurd lower (List.not_lt_nil _)
    | cons d ds =>
      rw [List.flatMap_cons, List.flatMap_cons]
      rcases List.cons_lt_cons_iff.1 lower with first | ⟨rfl, rest⟩
      · exact utf8EncodeChar_append_lt first _ _
      · exact List.append_left_lt (ih rest)

/-- Texts are in the order of their bytes. -/
theorem textBytes_lt_iff {s t : String} : textBytes s < textBytes t ↔ s < t := by
  have mono {s t : String} (lower : s < t) : textBytes s < textBytes t := by
    rw [textBytes_eq, textBytes_eq]
    exact flatMap_utf8EncodeChar_lt (String.lt_iff_toList_lt.1 lower)
  refine ⟨fun bytes => ?_, mono⟩
  rcases lt_trichotomy s t with lower | rfl | higher
  · exact lower
  · exact absurd bytes (List.lt_asymm bytes)
  · exact absurd bytes (List.lt_asymm (mono higher))

end RevisionGraph

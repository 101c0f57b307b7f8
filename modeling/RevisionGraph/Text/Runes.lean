/-!
# Bytes as characters

`Runes.ofBytes` reads bytes as UTF-8. A byte that belongs to no character becomes `none`.
-/

namespace RevisionGraph

/-- The bytes of a text in UTF-8. -/
def textBytes (text : String) : List UInt8 := text.toUTF8.data.toList

theorem fromUTF8?_toUTF8 (text : String) : String.fromUTF8? text.toUTF8 = some text :=
  dif_pos text.isValidUTF8

theorem fromUTF8?_textBytes (text : String) :
    String.fromUTF8? (textBytes text).toByteArray = some text := by
  have bytes : (textBytes text).toByteArray = text.toUTF8 := by
    apply ByteArray.ext
    rw [List.data_toByteArray, textBytes, Array.toArray_toList]
  rw [bytes, fromUTF8?_toUTF8]

/-- A character, or a byte that belongs to none. -/
abbrev Rune := Option Char

namespace Runes

def ofString (text : String) : List Rune := text.toList.map some

/-- Decodes from position `i` on; `done` holds what comes before, the last first. -/
def decode (bytes : ByteArray) (i : Nat) (done : List Rune) : Nat → List Rune
  | 0 => done.reverse
  | fuel + 1 =>
    if i < bytes.size then
      match bytes.utf8DecodeChar? i with
      | some c => decode bytes (i + c.utf8Size) (some c :: done) fuel
      | none => decode bytes (i + 1) (none :: done) fuel
    else done.reverse

def ofBytes (bytes : ByteArray) : List Rune :=
  match String.fromUTF8? bytes with
  | some text => ofString text
  | none => decode bytes 0 [] bytes.size

end Runes

end RevisionGraph

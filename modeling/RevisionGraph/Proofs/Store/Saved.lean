import RevisionGraph.Proofs.Document.Levels
import RevisionGraph.Store.Disk

/-!
# A saved store

The file of a store holds no floats and is nested three levels deep, so a store is read back from
its text whatever it holds: `DiskStore.read?_text`.
-/

namespace RevisionGraph.DiskStore

open Json

variable {codec : Codec Summary}

theorem hereditary_value {Q : Nat → Value → Prop} (hereditary : Value.Hereditary Q) {n : Nat}
    (s : DiskStore codec) : Q (n + 3) s.value := by
  have texts : Q (n + 2) (Document.mapValue .text s.texts) :=
    (Document.hereditary_mapValue hereditary).2 fun entry _ => hereditary.text _ entry.2
  have bytes (bytes : List UInt8) : Q (n + 1) (bytesValue bytes) :=
    (hereditary.array n _).2 (List.forall_mem_map.2 fun byte _ => hereditary.whole n _)
  have summaries : Q (n + 2) (Document.mapValue bytesValue s.summaries) :=
    (Document.hereditary_mapValue hereditary).2 fun entry _ => bytes entry.2
  rw [value, hereditary.array]
  exact List.forall_mem_cons.2 ⟨texts, List.forall_mem_singleton.2 summaries⟩

theorem restores_byte (byte : UInt8) : byteDecoder.Restores (byteValue byte) byte := by
  intro depth
  have small : byte.toUInt64 < 256 := by
    rw [UInt64.lt_iff_toNat_lt, UInt8.toNat_toUInt64]
    exact byte.toNat_lt
  have leaf : (byteValue byte).nesting ≤ depth := Nat.zero_le depth
  have natural : Decoder.natural depth (byteValue byte).tree = some byte.toUInt64 :=
    (Decoder.restores_natural byte.toUInt64 depth).trans (if_pos leaf)
  rw [byteDecoder, natural, Option.bind_some, if_pos small, if_pos leaf, UInt8.toUInt8_toUInt64]

theorem restores_bytes (bytes : List UInt8) :
    (Decoder.list byteDecoder).Restores (bytesValue bytes) bytes :=
  Decoder.restores_list fun byte _ => restores_byte byte

theorem restores (s : DiskStore codec) : decoder.Restores s.value s := by
  have texts : (Decoder.map Decoder.text).Restores (Document.mapValue .text s.texts) s.texts :=
    Decoder.restores_map fun entry _ => Decoder.restores_text entry.2
  have summaries : (Decoder.map (Decoder.list byteDecoder)).Restores
      (Document.mapValue bytesValue s.summaries) s.summaries :=
    Decoder.restores_map fun entry _ => restores_bytes entry.2
  intro depth
  cases depth with
  | zero => rfl
  | succ depth =>
    rw [value, Value.tree, Value.itemTrees, Value.itemTrees, Value.itemTrees, decoder, texts,
      summaries]
    simp only [Value.nesting, Value.nestingItems, Nat.add_le_add_iff_right, Nat.max_le,
      Nat.zero_le, and_true, Option.bind_eq_bind, Value.ite_some_bind, ite_and]
    rfl

theorem read?_text (s : DiskStore codec) : read? s.text = some s := by
  have floatless : s.value.floatless = true :=
    hereditary_value (n := 0) Value.hereditary_floatless s
  have flat : s.value.nesting ≤ 3 := hereditary_value Value.hereditary_nesting s
  rw [read?, text, Value.parse_compact floatless, Option.bind_some, restores,
    if_pos (Nat.le_trans flat (by decide))]

end RevisionGraph.DiskStore

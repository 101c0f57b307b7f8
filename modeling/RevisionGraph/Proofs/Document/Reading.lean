import RevisionGraph.Document.Encode
import RevisionGraph.Document.Text
import RevisionGraph.Proofs.Json.Decoding

/-!
# Reading written documents

The text of a document is read as that document, compact or pretty, if it holds no double and is not
nested too deep: `Document.parse_compact` and `Document.parse_pretty`.
-/

namespace RevisionGraph

open Json

namespace Document

/-! ### Parts of a document -/

variable {α : Type}

theorem restores_orNull {decode : Decoder α} {write : α → Value} {o : Option α}
    (each : ∀ a, o = some a → decode.Restores (write a) a ∧ (write a).tree ≠ .null) :
    (Decoder.optional decode).Restores (orNull write o) o := by
  cases o with
  | none => exact fun _ => rfl
  | some a =>
    obtain ⟨restores, notNull⟩ := each a rfl
    exact restores.optional notNull

theorem restores_texts (texts : List String) :
    (Decoder.list Decoder.text).Restores (textsValue texts) texts :=
  Decoder.restores_list fun s _ => Decoder.restores_text s

theorem restores_optional_text (o : Option String) :
    (Decoder.optional Decoder.text).Restores (orNull Value.text o) o :=
  restores_orNull fun s _ => ⟨Decoder.restores_text s, by simp [Value.tree]⟩

theorem restores_optional_map {decode : Decoder α} {write : α → Value}
    {o : Option (SortedMap String α)}
    (each : ∀ m, o = some m → m.AllValues fun a => decode.Restores (write a) a) :
    (Decoder.optional (Decoder.map decode)).Restores (orNull (mapValue write) o) o :=
  restores_orNull fun m held =>
    ⟨Decoder.restores_map (each m held), by simp [mapValue, Value.tree]⟩

theorem restores_optional_texts (o : Option (List String)) :
    (Decoder.optional (Decoder.list Decoder.text)).Restores (orNull textsValue o) o :=
  restores_orNull fun texts _ => ⟨restores_texts texts, by simp [textsValue, Value.tree]⟩

/-! ### Sorted documents -/

def MethodEntry.Noted (P : Value → Prop) (e : MethodEntry) : Prop :=
  ∀ metadata, e.metadata = some metadata → metadata.AllValues P

def TypeEntry.Noted (P : Value → Prop) (e : TypeEntry) : Prop :=
  ∀ methods, e.methods = some methods → methods.AllValues (MethodEntry.Noted P)

def CallEntry.Noted (P : Value → Prop) (e : CallEntry) : Prop :=
  e.sites.AllValues fun metadata => metadata.AllValues P

/-- What a document keeps as it is has its members in key order. -/
structure Sorted (d : Document) : Prop where
  timestamp : ∀ v, d.timestamp = some v → v.IsSorted ∧ v.tree ≠ .null
  types : ∀ t, d.types = some t → ∀ types, some types ∈ [t.internal, t.external, t.resolved] →
    types.AllValues (TypeEntry.Noted Value.IsSorted)
  calls : ∀ c, d.calls = some c → ∀ calls, some calls ∈ [c.internal, c.external, c.resolved] →
    ∀ entry ∈ calls, entry.Noted Value.IsSorted

theorem MethodEntry.restores {e : MethodEntry} (sorted : e.Noted Value.IsSorted) :
    MethodEntry.decoder.Restores e.value e := by
  have metadata : (Decoder.optional Decoder.metadata).Restores (orNull metadataValue e.metadata)
      e.metadata :=
    restores_orNull fun m held =>
      ⟨Decoder.restores_metadata (sorted m held), by simp [metadataValue, Value.tree]⟩
  refine Decoder.restores_record (by simp) (by simp) fun depth => ?_
  rw [Fields.optional_written rfl (restores_optional_text e.uri),
    Fields.optional_written rfl metadata]
  simp only [Value.nestingMembers, Nat.max_le, Nat.zero_le, and_true, Option.bind_eq_bind,
    Value.ite_some_bind, ite_and]
  rfl

theorem TypeEntry.restores {e : TypeEntry} (sorted : e.Noted Value.IsSorted) :
    TypeEntry.decoder.Restores e.value e := by
  have methods : (Decoder.optional (Decoder.map MethodEntry.decoder)).Restores
      (orNull (mapValue MethodEntry.value) e.methods) e.methods :=
    restores_optional_map fun m held entry mem => MethodEntry.restores (sorted m held entry mem)
  have isFinal : (Decoder.optional Decoder.bool).Restores (orNull Value.bool e.isFinal)
      e.isFinal :=
    restores_orNull fun b _ => ⟨Decoder.restores_bool b, by simp [Value.tree]⟩
  refine Decoder.restores_record (by simp [fieldNames]) (by simp) fun depth => ?_
  rw [Fields.optional_written rfl (restores_optional_text e.sourceFile),
    Fields.optional_written rfl methods,
    Fields.optional_written rfl (restores_optional_texts e.superClasses),
    Fields.optional_written rfl (restores_optional_texts e.superInterfaces),
    Fields.optional_written rfl (restores_optional_text e.access),
    Fields.optional_written rfl isFinal]
  simp only [Value.nestingMembers, Nat.max_le, Nat.zero_le, and_true, Option.bind_eq_bind,
    Value.ite_some_bind, ite_and]
  rfl

theorem restores_types {o : Option (SortedMap String TypeEntry)}
    (sorted : ∀ types, o = some types → types.AllValues (TypeEntry.Noted Value.IsSorted)) :
    (Decoder.optional (Decoder.map TypeEntry.decoder)).Restores
      (orNull (mapValue TypeEntry.value) o) o :=
  restores_optional_map fun types held entry mem => TypeEntry.restores (sorted types held entry mem)

theorem Types.restores {t : Types}
    (sorted : ∀ types, some types ∈ [t.internal, t.external, t.resolved] →
      types.AllValues (TypeEntry.Noted Value.IsSorted)) :
    Types.decoder.Restores t.value t := by
  refine Decoder.restores_record (by simp [Scope.all]) (by simp [Scope.name]) fun depth => ?_
  dsimp only
  rw [Fields.optional_written rfl (restores_types fun types held => sorted types (by simp [held])),
    Fields.optional_written rfl (restores_types fun types held => sorted types (by simp [held])),
    Fields.optional_written rfl (restores_types fun types held => sorted types (by simp [held]))]
  simp only [Value.nestingMembers, Nat.max_le, Nat.zero_le, and_true, Option.bind_eq_bind,
    Value.ite_some_bind, ite_and]
  rfl

theorem CallEntry.restores {e : CallEntry} (sorted : e.Noted Value.IsSorted) :
    CallEntry.decoder.Restores e.value e := by
  have sites : (Decoder.map Decoder.metadata).Restores (mapValue metadataValue e.sites) e.sites :=
    Decoder.restores_map fun entry mem => Decoder.restores_metadata (sorted entry mem)
  intro depth
  cases depth with
  | zero => rfl
  | succ depth =>
    have read := sites depth
    simp only [CallEntry.value, Value.tree, Value.itemTrees, CallEntry.decoder, Decoder.text,
      Option.bind_eq_bind, Option.bind_some, read, Value.ite_some_bind, Value.nesting,
      Value.nestingItems, Nat.add_le_add_iff_right, Nat.max_le, Nat.zero_le, and_true, true_and]
    rfl

theorem restores_calls {o : Option (List CallEntry)}
    (sorted : ∀ calls, o = some calls → ∀ entry ∈ calls, entry.Noted Value.IsSorted) :
    (Decoder.optional (Decoder.list CallEntry.decoder)).Restores (orNull callsValue o) o :=
  restores_orNull fun calls held =>
    ⟨Decoder.restores_list fun entry mem => CallEntry.restores (sorted calls held entry mem),
      by simp [callsValue, Value.tree]⟩

theorem Calls.restores {c : Calls}
    (sorted : ∀ calls, some calls ∈ [c.internal, c.external, c.resolved] →
      ∀ entry ∈ calls, entry.Noted Value.IsSorted) :
    Calls.decoder.Restores c.value c := by
  refine Decoder.restores_record (by simp [Relation.all]) (by simp [Relation.name]) fun depth => ?_
  dsimp only
  rw [Fields.optional_written rfl (restores_calls fun calls held => sorted calls (by simp [held])),
    Fields.optional_written rfl (restores_calls fun calls held => sorted calls (by simp [held])),
    Fields.optional_written rfl (restores_calls fun calls held => sorted calls (by simp [held]))]
  simp only [Value.nestingMembers, Nat.max_le, Nat.zero_le, and_true, Option.bind_eq_bind,
    Value.ite_some_bind, ite_and]
  rfl

theorem restores {d : Document} (sorted : d.Sorted) : Document.decoder.Restores d.value d := by
  obtain ⟨forge, product, version, generator, timestamp, types, calls, nodes⟩ := d
  have cha : (Decoder.optional Types.decoder).Restores (orNull Types.value types) types :=
    restores_orNull fun t held =>
      ⟨Types.restores (sorted.types t held), by simp [Types.value, Value.tree]⟩
  have graph : (Decoder.optional Calls.decoder).Restores (orNull Calls.value calls) calls :=
    restores_orNull fun c held =>
      ⟨Calls.restores (sorted.calls c held), by simp [Calls.value, Value.tree]⟩
  have count : (Decoder.optional Decoder.natural).Restores (orNull Value.natural nodes) nodes :=
    restores_orNull fun n _ =>
      ⟨Decoder.restores_natural n, by simp [Value.natural, Value.whole, Value.tree]⟩
  -- An unknown time has no member at all, so the document is one of two records.
  cases timestamp with
  | none =>
    refine Decoder.restores_record (by simp [fieldNames]) (by simp) fun depth => ?_
    rw [Fields.optional_written rfl (restores_optional_text forge),
      Fields.optional_written rfl (restores_optional_text product),
      Fields.optional_written rfl (restores_optional_text version),
      Fields.optional_written rfl (restores_optional_text generator),
      Fields.optional_unwritten rfl, Fields.optional_written rfl cha,
      Fields.optional_written rfl graph, Fields.optional_written rfl count]
    simp only [Option.map_none, Option.toList_none, List.cons_append, List.nil_append,
      Value.nestingMembers, Nat.max_le, Nat.zero_le, and_true, Option.bind_eq_bind,
      Value.ite_some_bind, Option.bind_some, ite_and]
    rfl
  | some v =>
    obtain ⟨timeSorted, notNull⟩ := sorted.timestamp v rfl
    have time : (Decoder.optional Decoder.value).Restores v (some v) :=
      (Decoder.restores_value timeSorted).optional notNull
    refine Decoder.restores_record (by simp [fieldNames]) (by simp) fun depth => ?_
    rw [Fields.optional_written rfl (restores_optional_text forge),
      Fields.optional_written rfl (restores_optional_text product),
      Fields.optional_written rfl (restores_optional_text version),
      Fields.optional_written rfl (restores_optional_text generator),
      Fields.optional_written rfl time, Fields.optional_written rfl cha,
      Fields.optional_written rfl graph, Fields.optional_written rfl count]
    simp only [Option.map_some, Option.toList_some, List.cons_append, List.nil_append,
      Value.nestingMembers, Nat.max_le, Nat.zero_le, and_true, Option.bind_eq_bind,
      Value.ite_some_bind, ite_and]
    rfl

/-! ### Whole documents -/

theorem parse_value {v : Value} (floatless : v.floatless = true) :
    parse (Runes.ofString v.compact) = ofValue? v := by
  rw [parse, Value.parse_compact floatless]
  rfl

/-- The text of a document is read as that document, where the reader goes deep enough. -/
theorem parse_compact {d : Document} (sorted : d.Sorted) (floatless : d.value.floatless = true) :
    parse (Runes.ofString d.value.compact) =
      if d.value.nesting ≤ Tree.nestingLimit then some d else none := by
  rw [parse, Value.parse_compact floatless, Option.bind_some, restores sorted]

theorem parse_pretty {d : Document} (sorted : d.Sorted) (floatless : d.value.floatless = true) :
    parse (Runes.ofString d.value.pretty) =
      if d.value.nesting ≤ Tree.nestingLimit then some d else none := by
  rw [parse, Value.parse_pretty floatless, Option.bind_some, restores sorted]

end Document

end RevisionGraph

import RevisionGraph.Proofs.Assembly.Notes

/-!
# Facts read back

The text of facts is read as these facts, if it holds no double and is not nested too deep:
`Facts.parse_compact`.
-/

namespace RevisionGraph

open Json

theorem restores_textValues (texts : List String) :
    (Decoder.list Decoder.text).Restores (textValues texts) texts :=
  Decoder.restores_list fun s _ => Decoder.restores_text s

theorem TypeFact.restores (f : TypeFact) : TypeFact.decoder.Restores f.value f := by
  refine Decoder.restores_record (by simp [fieldNames]) (by simp) fun depth => ?_
  rw [Fields.required_written rfl (Decoder.restores_text f.uri),
    Fields.withDefault_written rfl (Decoder.restores_text f.sourceFile),
    Fields.withDefault_written rfl (restores_textValues f.superClasses),
    Fields.withDefault_written rfl (restores_textValues f.superInterfaces),
    Fields.withDefault_written rfl (Decoder.restores_text f.access),
    Fields.withDefault_written rfl (Decoder.restores_bool f.isFinal)]
  simp only [Value.nestingMembers, Nat.max_le, Nat.zero_le, and_true, Option.bind_eq_bind,
    Value.ite_some_bind, ite_and]
  rfl

theorem MethodFact.restores {f : MethodFact} (sorted : f.metadata.AllValues Value.IsSorted) :
    MethodFact.decoder.Restores f.value f := by
  refine Decoder.restores_record (by simp) (by simp) fun depth => ?_
  rw [Fields.required_written rfl (Decoder.restores_text f.uri),
    Fields.withDefault_written rfl (Decoder.restores_metadata sorted)]
  simp only [Value.nestingMembers, Nat.max_le, Nat.zero_le, and_true, Option.bind_eq_bind,
    Value.ite_some_bind, ite_and]
  rfl

theorem CallFact.restores {f : CallFact} (sorted : f.metadata.AllValues Value.IsSorted) :
    CallFact.decoder.Restores f.value f := by
  refine Decoder.restores_record (by simp [fieldNames]) (by simp) fun depth => ?_
  rw [Fields.required_written rfl (Decoder.restores_text f.caller),
    Fields.required_written rfl (Decoder.restores_text f.callee),
    Fields.required_written rfl (Decoder.restores_int f.site),
    Fields.required_written rfl (Decoder.restores_text f.kind),
    Fields.withDefault_written rfl (Decoder.restores_metadata sorted)]
  simp only [Value.nestingMembers, Nat.max_le, Nat.zero_le, and_true, Option.bind_eq_bind,
    Value.ite_some_bind, ite_and]
  rfl

namespace Facts

theorem restores_timestamp (o : Option Int64) :
    (Decoder.optional Decoder.int64).Restores ((o.map Value.int).getD .null) o := by
  cases o with
  | none => exact fun _ => rfl
  | some i =>
    exact (Decoder.restores_int i).optional (by simp [Value.int, Value.whole, Value.tree])

theorem restores {f : Facts} (sorted : f.Noted Value.IsSorted Value.IsSorted) :
    Facts.decoder.Restores f.value f := by
  have types : (Decoder.list TypeFact.decoder).Restores (.array (f.types.map TypeFact.value))
      f.types :=
    Decoder.restores_list fun fact _ => fact.restores
  have methods : (Decoder.list MethodFact.decoder).Restores
      (.array (f.methods.map MethodFact.value)) f.methods :=
    Decoder.restores_list fun fact mem => MethodFact.restores (sorted.1 fact mem)
  have calls : (Decoder.list CallFact.decoder).Restores (.array (f.calls.map CallFact.value))
      f.calls :=
    Decoder.restores_list fun fact mem => CallFact.restores (sorted.2 fact mem)
  refine Decoder.restores_record (by simp [fieldNames]) (by simp) fun depth => ?_
  rw [Fields.required_written rfl (Decoder.restores_text f.forge),
    Fields.required_written rfl (Decoder.restores_text f.product),
    Fields.required_written rfl (Decoder.restores_text f.version),
    Fields.required_written rfl (Decoder.restores_text f.generator),
    Fields.optional_written rfl (restores_timestamp f.timestamp),
    Fields.withDefault_written rfl types, Fields.withDefault_written rfl methods,
    Fields.withDefault_written rfl calls]
  simp only [Value.nestingMembers, Nat.max_le, Nat.zero_le, and_true, Option.bind_eq_bind,
    Value.ite_some_bind, ite_and]
  rfl

theorem parse_compact {f : Facts} (sorted : f.Noted Value.IsSorted Value.IsSorted)
    (floatless : f.value.floatless = true) :
    parse (Runes.ofString f.value.compact) =
      if f.value.nesting ≤ Tree.nestingLimit then some f else none := by
  rw [parse, Value.parse_compact floatless, Option.bind_some, restores sorted]

end Facts

end RevisionGraph

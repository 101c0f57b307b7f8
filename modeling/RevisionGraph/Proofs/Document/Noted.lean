import RevisionGraph.Proofs.Document.Acceptance
import RevisionGraph.Proofs.Document.Written

/-!
# What is noted in a document that is read

The reader counts levels, so nothing that is noted in a document stands deeper than the reader goes.
What the document is decoded to notes the same values, and is written with them at the same levels:
`Decoded.parse_render_of_parse`.
-/

namespace RevisionGraph

open Json

namespace Document

/-! ### Reading -/

theorem MethodEntry.gives_decoder :
    MethodEntry.decoder.Gives fun depth => MethodEntry.Noted (Value.Fits (depth - 2)) := by
  intro depth tree e read
  simp only [decoder, Option.bind_eq_bind, Option.bind_eq_some_iff] at read
  obtain ⟨fields, record, uri, _, metadata, given, made⟩ := read
  cases made
  have fits := Fields.gives_optional Decoder.gives_metadata given
  rw [Fields.depth_of_read? record] at fits
  exact fits

theorem TypeEntry.gives_decoder :
    TypeEntry.decoder.Gives fun depth => TypeEntry.Noted (Value.Fits (depth - 4)) := by
  intro depth tree e read
  simp only [decoder, Option.bind_eq_bind, Option.bind_eq_some_iff] at read
  obtain ⟨fields, record, _, _, methods, given, _, _, _, _, _, _, _, _, made⟩ := read
  cases made
  have fits := Fields.gives_optional MethodEntry.gives_decoder.map given
  rw [Fields.depth_of_read? record] at fits
  exact fits

theorem Types.gives_decoder :
    Types.decoder.Gives fun depth t => ∀ scope entries, t.get scope = some entries →
      entries.AllValues (TypeEntry.Noted (Value.Fits (depth - 6))) := by
  intro depth tree t read
  simp only [decoder, Option.bind_eq_bind, Option.bind_eq_some_iff] at read
  obtain ⟨fields, record, internal, first, external, second, resolved, third, made⟩ := read
  cases made
  have fits {scope : Scope} {o : Option (SortedMap String TypeEntry)}
      (given : fields.optional scope.name (Decoder.map TypeEntry.decoder) = some o) :
      ∀ entries, o = some entries →
        entries.AllValues (TypeEntry.Noted (Value.Fits (depth - 6))) := by
    have fits := Fields.gives_optional TypeEntry.gives_decoder.map given
    rw [Fields.depth_of_read? record] at fits
    exact fits
  intro scope
  cases scope with
  | internal => exact fits first
  | external => exact fits second
  | resolved => exact fits third

theorem CallEntry.gives_decoder :
    CallEntry.decoder.Gives fun depth => CallEntry.Noted (Value.Fits (depth - 3)) := by
  intro depth tree e read
  unfold decoder at read
  split at read
  · simp only [Option.bind_eq_bind, Option.bind_eq_some_iff] at read
    obtain ⟨caller, _, callee, _, sites, given, made⟩ := read
    cases made
    exact Decoder.gives_metadata.map _ _ _ given
  · cases read

theorem Calls.gives_decoder :
    Calls.decoder.Gives fun depth c => ∀ relation entries, c.get relation = some entries →
      ∀ e ∈ entries, e.Noted (Value.Fits (depth - 5)) := by
  intro depth tree c read
  simp only [decoder, Option.bind_eq_bind, Option.bind_eq_some_iff] at read
  obtain ⟨fields, record, internal, first, external, second, resolved, third, made⟩ := read
  cases made
  have fits {relation : Relation} {o : Option (List CallEntry)}
      (given : fields.optional relation.name (Decoder.list CallEntry.decoder) = some o) :
      ∀ entries, o = some entries → ∀ e ∈ entries, e.Noted (Value.Fits (depth - 5)) := by
    have fits := Fields.gives_optional CallEntry.gives_decoder.list given
    rw [Fields.depth_of_read? record] at fits
    exact fits
  intro relation
  cases relation with
  | internal => exact fits first
  | external => exact fits second
  | resolved => exact fits third

/-- The values that the document notes about methods and about call sites have these properties. -/
structure Noted (methods sites : Value → Prop) (d : Document) : Prop where
  types : ∀ t, d.types = some t → ∀ scope entries, t.get scope = some entries →
    entries.AllValues (TypeEntry.Noted methods)
  calls : ∀ c, d.calls = some c → ∀ relation entries, c.get relation = some entries →
    ∀ e ∈ entries, e.Noted sites

theorem gives_decoder :
    Document.decoder.Gives fun depth =>
      Document.Noted (Value.Fits (depth - 7)) (Value.Fits (depth - 6)) := by
  intro depth tree d read
  simp only [decoder, Option.bind_eq_bind, Option.bind_eq_some_iff] at read
  obtain ⟨fields, record, _, _, _, _, _, _, _, _, _, _, types, readTypes, calls, readCalls, _, _,
    made⟩ := read
  cases made
  have typesFit := Fields.gives_optional Types.gives_decoder readTypes
  have callsFit := Fields.gives_optional Calls.gives_decoder readCalls
  rw [Fields.depth_of_read? record] at typesFit callsFit
  exact ⟨typesFit, callsFit⟩

/-! ### Decoding -/

variable {P : Value → Prop}

theorem TypeEntry.Tells.noted {e : TypeEntry} {type : TypeDecl} (told : e.Tells type)
    (noted : e.Noted P) : type.methods.Noted P := by
  obtain ⟨methods, rows, held, each, perm⟩ := told.methods
  intro row mem
  obtain ⟨entry, entryMem, about⟩ := exists_mem_of_forall₂ each (perm.mem_iff.2 mem)
  exact noted methods held entry entryMem row.2.metadata about.metadata

theorem Types.Tells.noted {t : Types} {h : Hierarchy} (told : t.Tells h)
    (noted : ∀ scope entries, t.get scope = some entries →
      entries.AllValues (TypeEntry.Noted P)) : h.Noted P := by
  rw [Hierarchy.noted_iff]
  intro scope row mem
  obtain ⟨entries, held, each⟩ := told scope
  obtain ⟨entry, entryMem, _, about⟩ := exists_mem_of_forall₂ each mem
  exact about.noted (noted scope entries held entry entryMem)

theorem noted_decodeSites {path : FieldPath} {sites : SortedMap String Metadata}
    {decoded : CallSites} (noted : sites.AllValues fun metadata => metadata.AllValues P)
    (ok : decodeSites path sites = .ok decoded) : decoded.Noted P := by
  obtain ⟨rows, walked, made⟩ := bind_eq_ok_iff.1 ok
  cases made
  refine SortedMap.allValues_ofList fun row mem => ?_
  obtain ⟨entry, entryMem, read⟩ := mem_of_mapM_eq_ok walked mem
  obtain ⟨id, _, made⟩ := bind_eq_ok_iff.1 read
  cases made
  exact noted entry entryMem

theorem noted_decodeCall {path : FieldPath} {calls decoded : CallMap} {e : CallEntry}
    (before : calls.AllValues (CallSites.Noted P)) (noted : e.Noted P)
    (ok : decodeCall path calls e = .ok decoded) : decoded.AllValues (CallSites.Noted P) := by
  obtain ⟨caller, _, ok⟩ := bind_eq_ok_iff.1 ok
  obtain ⟨callee, _, ok⟩ := bind_eq_ok_iff.1 ok
  obtain ⟨sites, sitesOk, made⟩ := bind_eq_ok_iff.1 ok
  cases made
  have held : ((calls.get? ⟨caller, callee⟩).getD ∅).Noted P := by
    cases here : calls.get? ⟨caller, callee⟩ with
    | none => exact SortedMap.allValues_empty
    | some sites => exact SortedMap.allValues_iff.1 before _ sites here
  exact before.insert _ (held.merge (noted_decodeSites noted sitesOk))

theorem noted_decodeCallGraph {c : Calls} {g : CallGraph}
    (noted : ∀ relation entries, c.get relation = some entries → ∀ e ∈ entries, e.Noted P)
    (ok : decodeCallGraph c = .ok g) : g.Noted P := by
  have each {relation : Relation} {calls : CallMap}
      (ok : decodeRelation relation (c.get relation) = .ok calls) :
      calls.AllValues (CallSites.Noted P) := by
    obtain ⟨entries, held, walked⟩ := bind_eq_ok_iff.1 ok
    have told := noted relation entries (require_eq_ok_iff.1 held)
    refine foldlM_invariant (fun e mem before after ok kept => ?_) SortedMap.allValues_empty walked
    exact noted_decodeCall kept (told e mem) ok
  rw [CallGraph.noted_iff]
  exact fun relation => each (decodeCallGraph_eq_ok_iff.1 ok relation)

theorem noted_decode {methods sites : Value → Prop} {d : Document} {decoded : Decoded}
    (noted : d.Noted methods sites) (ok : d.decode = .ok decoded) :
    decoded.revision.Noted methods sites := by
  obtain ⟨_, _, _, _, t, c, _, hierarchy, calls, _, ⟨hasTypes, told, _⟩, ⟨hasCalls, callsOk⟩, _, _,
    made⟩ := decode_eq_ok_iff.1 ok
  obtain ⟨_, _, _, _, _, _, same⟩ := Revision.new_eq_ok_iff.1 made
  rw [same]
  have callsNoted := noted_decodeCallGraph (noted.calls c hasCalls) callsOk
  exact ⟨told.noted (noted.types t hasTypes), callsNoted⟩

end Document

namespace Decoded

variable {runes : List Rune} {decoded : Decoded}

theorem decode_of_parse (read : parse runes = .ok decoded) :
    ∃ d, Document.parse runes = some d ∧ d.decode = .ok decoded := by
  unfold parse at read
  split at read <;> rename_i document parsed
  · exact ⟨document, parsed, checked_eq_ok_iff.1 read⟩
  · cases read

/-- The levels that are counted by the reader are those that the document has when it is written. -/
theorem noted_of_parse (read : parse runes = .ok decoded) :
    decoded.revision.Noted (Value.Fits (Tree.nestingLimit - 7))
      (Value.Fits (Tree.nestingLimit - 6)) := by
  obtain ⟨d, parsed, ok⟩ := decode_of_parse read
  obtain ⟨tree, _, given⟩ := Option.bind_eq_some_iff.1 parsed
  exact Document.noted_decode (Document.gives_decoder _ tree d given) ok

/-- Whatever revision is read can be written, compact or pretty, and read again, and is then written
as the same text. -/
theorem parse_render_of_parse {bytes : ByteArray} {decoded : Decoded}
    (read : parse (Runes.ofBytes bytes) = .ok decoded) (floatless : decoded.revision.Floatless)
    (pretty : Bool) :
    let text := (Format.json pretty).render decoded.revision
    ∃ again, parse (Runes.ofString text) = .ok again ∧ again.revision = decoded.revision ∧
      (Format.json pretty).render again.revision = text := by
  obtain ⟨d, _, ok⟩ := decode_of_parse read
  have noted := noted_of_parse read
  have sorted := noted.imp (fun v fits => fits.1) fun v fits => fits.1
  have shallow : decoded.revision.Shallow :=
    noted.imp (fun v fits => fits.2) fun v fits => fits.2
  have readAgain := Revision.parse_render_of_shallow (.decoded ok) sorted floatless shallow pretty
  exact ⟨_, readAgain, rfl, rfl⟩

theorem parse_render_of_parse_respelled :
    let method : Value := .array [.text "/a/T.f()V", .object [("k", .array [.int 1])]]
    let type : Value := .array [.text "T.java", .object [("07", method)], .array [], .array [],
      .text "public", .bool false]
    let call (caller callee : String) (sites : List (String × Value)) : Value :=
      .array [.text caller, .text callee, .object sites]
    let calls : Value := .array [call "7" "+7" [], call "07" "7" [("1", .object [])]]
    let document : Value := .object [("timestamp", .text "today"), ("nodes", .int 1),
      ("graph", .array [calls, .array [], .array []]),
      ("cha", .array [.object [("/a/T", type)], .object [], .object []]),
      ("generator", .text "test"), ("forge", .text "mvn"), ("product", .text "lib"),
      ("version", .text "1.0")]
    ∃ decoded : Decoded, parse (Runes.ofBytes document.compact.toUTF8) = .ok decoded ∧
      decoded.revision.Floatless ∧
      ∃ again, parse (Runes.ofString decoded.revision.pretty) = .ok again ∧
        again.revision = decoded.revision ∧ again.revision.pretty = decoded.revision.pretty := by
  intro method type call calls document
  obtain ⟨decoded, made, floatless⟩ :
      ∃ decoded ∈ (parse (Runes.ofBytes document.compact.toUTF8)).toOption,
        decoded.revision.Floatless := by
    rw [Runes.ofBytes_toUTF8, parse, Document.parse_value rfl]
    decide +kernel
  cases read : parse (Runes.ofBytes document.compact.toUTF8) with
  | error failure =>
    rw [read] at made
    cases made
  | ok decoded' =>
    rw [read] at made
    cases made
    exact ⟨decoded, rfl, floatless, parse_render_of_parse read floatless true⟩

end Decoded

end RevisionGraph

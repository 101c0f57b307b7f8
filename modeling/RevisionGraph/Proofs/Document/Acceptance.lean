import RevisionGraph.Proofs.Document.Told
import RevisionGraph.Proofs.Revision.Naming

/-!
# Which documents are accepted

`Document.Acceptable` says field by field what a document has to be, without the decoder and its
order. By `Document.decode_iff_acceptable` just these documents are decoded, and nothing that they
tell about types and methods is lost.
-/

namespace RevisionGraph

theorem int64?_eq_some_iff {i : Int} {n : Int64} : int64? i = some n ↔ i = n.toInt := by
  constructor
  · intro fits
    unfold int64? at fits
    split at fits <;> rename_i bounds
    · cases fits
      exact (Int64.toInt_ofInt_of_le bounds.1 (Int.lt_add_one_of_le bounds.2)).symm
    · cases fits
  · rintro rfl
    exact int64?_toInt n

namespace Document

open Json

/-! ### Methods -/

structure MethodEntry.Acceptable (e : MethodEntry) : Prop where
  uri : ∃ text, e.uri = some text ∧ ∃ u, Uri.parse text = .ok u
  metadata : ∃ metadata, e.metadata = some metadata

/-- The keys name one id each and the entries one URI each, and no two the same. -/
structure AcceptableMethods (methods : SortedMap String MethodEntry) : Prop where
  keys : ∀ key ∈ methods.keys, ∃ id, readId? key = some id
  entries : ∀ e ∈ methods.values, e.Acceptable
  ids : (methods.keys.map readId?).Nodup
  uris : (methods.values.map MethodEntry.uri).Nodup

theorem MethodEntry.exists_tells_iff {entry : String × MethodEntry} :
    (∃ row, Tells entry row) ↔ (∃ id, readId? entry.1 = some id) ∧ entry.2.Acceptable := by
  constructor
  · rintro ⟨row, told⟩
    exact ⟨⟨_, told.id⟩, ⟨_, told.uri, _, row.2.uri.parse_text⟩, ⟨_, told.metadata⟩⟩
  · rintro ⟨⟨id, named⟩, ⟨_, told, u, read⟩, metadata, noted⟩
    obtain rfl := Uri.parse_eq_ok_iff.1 read
    exact ⟨(id, ⟨u, metadata⟩), named, told, noted⟩

/-- Entries repeat an id or a URI where the rows do that they are about. -/
theorem distinctRows_iff {entries : List (String × MethodEntry)} {rows : List (Int64 × Method)}
    (told : List.Forall₂ MethodEntry.Tells entries rows) :
    MethodTable.DistinctRows rows ↔
      (entries.map fun entry => readId? entry.1).Nodup ∧
        (entries.map fun entry => entry.2.uri).Nodup := by
  have ids : entries.map (fun entry => readId? entry.1) = (rows.map Prod.fst).map some := by
    rw [List.map_map]
    exact map_eq_map_of_forall₂ (fun _ _ row => row.id) told
  have uris : entries.map (fun entry => entry.2.uri) =
      (rows.map fun row => row.2.uri).map fun u => some u.text := by
    rw [List.map_map]
    exact map_eq_map_of_forall₂ (fun _ _ row => row.uri) told
  have idsApart : Function.Injective (some : Int64 → Option Int64) := fun _ _ => Option.some.inj
  have urisApart : Function.Injective fun u : Uri => some u.text := fun _ _ same =>
    Uri.ext_text (Option.some.inj same)
  rw [ids, uris, List.nodup_map_iff idsApart, List.nodup_map_iff urisApart]
  exact ⟨fun distinct => ⟨distinct.ids, distinct.uris⟩, fun ⟨ids, uris⟩ => ⟨ids, uris⟩⟩

theorem exists_table_iff {methods : SortedMap String MethodEntry} :
    (∃ rows, List.Forall₂ MethodEntry.Tells methods.toList rows ∧ MethodTable.DistinctRows rows) ↔
      AcceptableMethods methods := by
  have each : (∃ rows, List.Forall₂ MethodEntry.Tells methods.toList rows) ↔
      (∀ key ∈ methods.keys, ∃ id, readId? key = some id) ∧ ∀ e ∈ methods.values, e.Acceptable := by
    simp only [exists_forall₂_iff, MethodEntry.exists_tells_iff, SortedMap.keys, SortedMap.values,
      List.forall_mem_map, ← forall₂_and]
  have keys : methods.keys.map readId? = methods.toList.map fun entry => readId? entry.1 :=
    List.map_map
  have uris : methods.values.map MethodEntry.uri = methods.toList.map fun entry => entry.2.uri :=
    List.map_map
  constructor
  · rintro ⟨rows, told, distinct⟩
    obtain ⟨named, acceptable⟩ := each.1 ⟨rows, told⟩
    obtain ⟨idsApart, urisApart⟩ := (distinctRows_iff told).1 distinct
    exact ⟨named, acceptable, keys ▸ idsApart, uris ▸ urisApart⟩
  · rintro ⟨named, acceptable, idsApart, urisApart⟩
    obtain ⟨rows, told⟩ := each.2 ⟨named, acceptable⟩
    exact ⟨rows, told, (distinctRows_iff told).2 ⟨keys ▸ idsApart, uris ▸ urisApart⟩⟩

/-! ### Types -/

/-- Every text is a URI. -/
def AllUris (texts : List String) : Prop := ∀ text ∈ texts, ∃ u, Uri.parse text = .ok u

structure TypeEntry.Acceptable (e : TypeEntry) : Prop where
  sourceFile : ∃ text, e.sourceFile = some text
  methods : ∃ methods, e.methods = some methods ∧ AcceptableMethods methods
  superClasses : ∃ texts, e.superClasses = some texts ∧ AllUris texts
  superInterfaces : ∃ texts, e.superInterfaces = some texts ∧ AllUris texts
  access : ∃ name, e.access = some name ∧ name ∈ Access.all.map Access.name
  isFinal : ∃ isFinal, e.isFinal = some isFinal

theorem allUris_iff {texts : List String} :
    AllUris texts ↔ ∃ uris, texts = List.map Uri.text uris := by
  simp only [← Uri.mapM_parse_eq_ok_iff, exists_mapM_eq_ok_iff, AllUris]

theorem TypeEntry.exists_tells_iff {e : TypeEntry} : (∃ type, e.Tells type) ↔ e.Acceptable := by
  constructor
  · rintro ⟨type, told⟩
    obtain ⟨methods, rows, held, each, perm⟩ := told.methods
    obtain ⟨distinct, _⟩ := told.inStep.ofList_eq perm
    exact ⟨⟨_, told.sourceFile⟩, ⟨methods, held, exists_table_iff.1 ⟨rows, each, distinct⟩⟩,
      ⟨_, told.superClasses, allUris_iff.2 ⟨_, rfl⟩⟩,
      ⟨_, told.superInterfaces, allUris_iff.2 ⟨_, rfl⟩⟩,
      ⟨_, told.access, List.mem_map.2 ⟨type.access, by cases type.access <;> decide, rfl⟩⟩,
      ⟨_, told.isFinal⟩⟩
  · rintro ⟨⟨sourceFile, file⟩, ⟨methods, held, acceptable⟩, ⟨_, classes, areUris⟩,
      ⟨_, interfaces, areUris'⟩, ⟨_, named, isAccess⟩, isFinal, final⟩
    obtain ⟨rows, told, distinct⟩ := exists_table_iff.2 acceptable
    obtain ⟨superClasses, rfl⟩ := allUris_iff.1 areUris
    obtain ⟨superInterfaces, rfl⟩ := allUris_iff.1 areUris'
    obtain ⟨access, _, rfl⟩ := List.mem_map.1 isAccess
    have perm := (MethodTable.perm_toList_ofList distinct).symm
    exact ⟨⟨sourceFile, .ofList rows, superClasses, superInterfaces, access, isFinal⟩, file,
      ⟨methods, rows, held, told, perm⟩, MethodTable.inStep_ofList rows, classes, interfaces, named,
      final⟩

theorem exists_tellsEntry_iff {entry : String × TypeEntry} :
    (∃ row, TellsEntry entry row) ↔
      (∃ u, Uri.parse entry.1 = .ok u) ∧ entry.2.Acceptable := by
  rw [← TypeEntry.exists_tells_iff]
  constructor
  · rintro ⟨row, named, told⟩
    exact ⟨⟨row.1, Uri.parse_eq_ok_iff.2 named.symm⟩, row.2, told⟩
  · rintro ⟨⟨u, read⟩, type, told⟩
    exact ⟨(u, type), (Uri.parse_eq_ok_iff.1 read).symm, told⟩

theorem exists_tellsTypes_iff {entries : SortedMap String TypeEntry} :
    (∃ types, TellsTypes entries types) ↔
      AllUris entries.keys ∧ ∀ e ∈ entries.values, e.Acceptable := by
  have each : (∃ rows, List.Forall₂ TellsEntry entries.toList rows) ↔
      AllUris entries.keys ∧ ∀ e ∈ entries.values, e.Acceptable := by
    simp only [exists_forall₂_iff, exists_tellsEntry_iff, AllUris, SortedMap.keys,
      SortedMap.values, List.forall_mem_map, ← forall₂_and]
  rw [← each]
  constructor
  · rintro ⟨types, told⟩
    exact ⟨types.toList, told⟩
  · rintro ⟨rows, told⟩
    exact ⟨⟨rows, ascending_of_tells told⟩, told⟩

/-! ### Hierarchies -/

/-- Each scope is there with acceptable types under URIs, and no type is in two scopes. -/
structure Types.Acceptable (t : Types) : Prop where
  scopes : ∀ scope, ∃ entries, t.get scope = some entries ∧ AllUris entries.keys ∧
    ∀ e ∈ entries.values, e.Acceptable
  apart : ∀ first second entries others key, t.get first = some entries →
    t.get second = some others → key ∈ entries.keys → key ∈ others.keys → first = second

theorem TellsTypes.mem_keys_iff {entries : SortedMap String TypeEntry} {types : TypeMap}
    (told : TellsTypes entries types) {key : String} :
    key ∈ entries.keys ↔ ∃ uri, types.contains uri ∧ uri.text = key := by
  have keys : entries.keys = types.keys.map Uri.text := map_text_of_tells told
  simp only [keys, List.mem_map, SortedMap.mem_keys_iff]

theorem Types.exists_tells_iff {t : Types} :
    (∃ h : Hierarchy, t.Tells h ∧ h.Partitioned) ↔ t.Acceptable := by
  constructor
  · rintro ⟨h, told, parted⟩
    constructor
    · intro scope
      obtain ⟨entries, held, here⟩ := told scope
      exact ⟨entries, held, exists_tellsTypes_iff.1 ⟨_, here⟩⟩
    · intro first second entries others key held heldToo mem memToo
      obtain ⟨_, same, here⟩ := told first
      obtain ⟨_, sameToo, there⟩ := told second
      cases held.symm.trans same
      cases heldToo.symm.trans sameToo
      obtain ⟨uri, declared, rfl⟩ := here.mem_keys_iff.1 mem
      obtain ⟨other, declaredToo, sameText⟩ := there.mem_keys_iff.1 memToo
      cases Uri.ext_text sameText
      exact parted first second uri declared declaredToo
  · rintro ⟨scopes, apart⟩
    have each (scope : Scope) : ∃ types entries, t.get scope = some entries ∧
        TellsTypes entries types := by
      obtain ⟨entries, held, acceptable⟩ := scopes scope
      obtain ⟨types, told⟩ := exists_tellsTypes_iff.2 acceptable
      exact ⟨types, entries, held, told⟩
    obtain ⟨internal, internalTold⟩ := each .internal
    obtain ⟨external, externalTold⟩ := each .external
    obtain ⟨resolved, resolvedTold⟩ := each .resolved
    have told : t.Tells ⟨internal, external, resolved⟩ := by
      rintro ⟨⟩
      · exact internalTold
      · exact externalTold
      · exact resolvedTold
    refine ⟨_, told, ?_⟩
    intro first second uri declared declaredToo
    obtain ⟨entries, held, here⟩ := told first
    obtain ⟨others, heldToo, there⟩ := told second
    exact apart first second entries others uri.text held heldToo
      (here.mem_keys_iff.2 ⟨uri, declared, rfl⟩) (there.mem_keys_iff.2 ⟨uri, declaredToo, rfl⟩)

/-! ### Calls -/

def NamesId (text : String) : Prop := ∃ id, readId? text = some id

structure CallEntry.Acceptable (e : CallEntry) : Prop where
  caller : NamesId e.caller
  callee : NamesId e.callee
  sites : ∀ key ∈ e.sites.keys, NamesId key

theorem exists_decodeSites_iff {path : FieldPath} {sites : SortedMap String Metadata} :
    (∃ decoded, decodeSites path sites = .ok decoded) ↔ ∀ key ∈ sites.keys, NamesId key := by
  have read (key : String) : (∃ id, decodeId path key = .ok id) ↔ NamesId key := by
    simp only [decodeId_eq_ok_iff, NamesId]
  unfold decodeSites
  rw [exists_bind_pure_iff, exists_mapM_eq_ok_iff]
  simp only [exists_bind_pure_iff, read, SortedMap.keys, List.forall_mem_map]

theorem exists_decodeCall_iff {path : FieldPath} {calls : CallMap} {e : CallEntry} :
    (∃ decoded, decodeCall path calls e = .ok decoded) ↔ e.Acceptable := by
  unfold decodeCall
  simp only [bind_eq_ok_iff, decodeId_eq_ok_iff]
  constructor
  · rintro ⟨_, caller, callerOk, callee, calleeOk, sites, sitesOk, _⟩
    exact ⟨⟨caller, callerOk⟩, ⟨callee, calleeOk⟩, exists_decodeSites_iff.1 ⟨sites, sitesOk⟩⟩
  · rintro ⟨⟨caller, callerOk⟩, ⟨callee, calleeOk⟩, sitesOk⟩
    obtain ⟨sites, sitesOk⟩ := exists_decodeSites_iff.2 sitesOk
    exact ⟨_, caller, callerOk, callee, calleeOk, sites, sitesOk, rfl⟩

def Calls.get (c : Calls) : Relation → Option (List CallEntry)
  | .internal => c.internal
  | .external => c.external
  | .resolved => c.resolved

def Calls.Acceptable (c : Calls) : Prop :=
  ∀ relation, ∃ calls, c.get relation = some calls ∧ ∀ e ∈ calls, e.Acceptable

theorem exists_decodeRelation_iff {relation : Relation} {calls : Option (List CallEntry)} :
    (∃ decoded, decodeRelation relation calls = .ok decoded) ↔
      ∃ told, calls = some told ∧ ∀ e ∈ told, e.Acceptable := by
  have accepts (before : CallMap) (e : CallEntry) :
      (∃ after, decodeCall (relationPath relation) before e = .ok after) ↔ e.Acceptable :=
    exists_decodeCall_iff
  have each (told : List CallEntry) :
      (∃ decoded, decodeCalls relation told = .ok decoded) ↔ ∀ e ∈ told, e.Acceptable :=
    exists_foldlM_eq_ok_iff accepts
  simp only [← each, decodeRelation, bind_eq_ok_iff, require_eq_ok_iff]
  constructor
  · rintro ⟨decoded, told, held, ok⟩
    exact ⟨told, held, decoded, ok⟩
  · rintro ⟨told, held, decoded, ok⟩
    exact ⟨decoded, told, held, ok⟩

theorem decodeCallGraph_eq_ok_iff {c : Calls} {g : CallGraph} :
    decodeCallGraph c = .ok g ↔
      ∀ relation, decodeRelation relation (c.get relation) = .ok (g.get relation) := by
  unfold decodeCallGraph
  simp only [bind_eq_ok_iff]
  constructor
  · rintro ⟨internal, first, external, second, resolved, third, made⟩ ⟨⟩ <;> cases made
    · exact first
    · exact second
    · exact third
  · intro each
    exact ⟨_, each .internal, _, each .external, _, each .resolved, rfl⟩

theorem exists_decodeCallGraph_iff {c : Calls} :
    (∃ g, decodeCallGraph c = .ok g) ↔ c.Acceptable := by
  simp only [decodeCallGraph_eq_ok_iff]
  constructor
  · rintro ⟨g, each⟩ relation
    exact exists_decodeRelation_iff.1 ⟨g.get relation, each relation⟩
  · intro acceptable
    obtain ⟨internal, first⟩ := exists_decodeRelation_iff.2 (acceptable .internal)
    obtain ⟨external, second⟩ := exists_decodeRelation_iff.2 (acceptable .external)
    obtain ⟨resolved, third⟩ := exists_decodeRelation_iff.2 (acceptable .resolved)
    refine ⟨⟨internal, external, resolved⟩, ?_⟩
    rintro ⟨⟩
    · exact first
    · exact second
    · exact third

/-! ### Times -/

theorem eq_int_iff {n : Whole} {seconds : Int64} :
    Value.number (.whole n) = Value.int seconds ↔ n.toInt64? = some seconds := by
  unfold Value.int Value.whole Whole.toInt64?
  rw [int64?_eq_some_iff]
  constructor
  · rintro ⟨⟩
    rfl
  · intro same
    obtain ⟨val, lower, upper⟩ := n
    cases same
    rfl

/-- A time is missing, known, or neither and then given back in a warning. -/
theorem decodeTimestamp_cases (time : Option Value) :
    ((time = none ∨ time = some .null) ∧ (decodeTimestamp time).2 = [.missingTimestamp]) ∨
      (∃ seconds, time = some (.int seconds) ∧ decodeTimestamp time = (seconds, [])) ∨
      ∃ value, time = some value ∧ value ≠ .null ∧ (∀ seconds, value ≠ .int seconds) ∧
        (decodeTimestamp time).2 = [.invalidTimestamp value] := by
  unfold decodeTimestamp
  split
  · exact .inl ⟨.inl rfl, rfl⟩
  · exact .inl ⟨.inr rfl, rfl⟩
  · rename_i value notNull
    split
    · rename_i n
      split <;> rename_i fits
      · exact .inr (.inl ⟨_, congrArg some (eq_int_iff.2 fits), rfl⟩)
      · refine .inr (.inr ⟨_, rfl, notNull, ?_, rfl⟩)
        intro seconds same
        rw [eq_int_iff.1 same] at fits
        cases fits
    · rename_i notWhole
      refine .inr (.inr ⟨value, rfl, notNull, ?_, rfl⟩)
      intro seconds same
      exact notWhole _ same

theorem warnings_decodeTimestamp (time : Option Value) :
    ((decodeTimestamp time).2 = [] ↔ ∃ seconds, time = some (.int seconds)) ∧
      ((decodeTimestamp time).2 = [.missingTimestamp] ↔ time = none ∨ time = some .null) ∧
      ∀ value, (decodeTimestamp time).2 = [.invalidTimestamp value] ↔
        time = some value ∧ value ≠ .null ∧ ∀ seconds, value ≠ .int seconds := by
  have notNull (seconds : Int64) : Value.int seconds ≠ .null := by
    rintro ⟨⟩
  rcases decodeTimestamp_cases time with ⟨missing, warned⟩ | ⟨seconds, rfl, read⟩ |
    ⟨value, rfl, given, notInt, warned⟩
  · rw [warned]
    refine ⟨iff_of_false (by simp) ?_, iff_of_true rfl missing, fun value =>
      iff_of_false (by simp) ?_⟩
    · rintro ⟨seconds, rfl⟩
      simp [notNull] at missing
    · rintro ⟨rfl, given, _⟩
      simp [given] at missing
  · rw [read]
    refine ⟨iff_of_true rfl ⟨seconds, rfl⟩, iff_of_false (by simp) (by simp [notNull]), fun value =>
      iff_of_false (by simp) ?_⟩
    rintro ⟨⟨⟩, _, notInt⟩
    exact notInt seconds rfl
  · rw [warned]
    refine ⟨iff_of_false (by simp) ?_, iff_of_false (by simp) (by simp [given]), fun other => ?_⟩
    · rintro ⟨seconds, ⟨⟩⟩
      exact notInt seconds rfl
    · constructor
      · rintro ⟨⟩
        exact ⟨rfl, given, notInt⟩
      · rintro ⟨⟨⟩, _⟩
        rfl

/-! ### Documents -/

/-- Every field but the time is there, and acceptable. -/
structure Acceptable (d : Document) : Prop where
  coordinates : ∃ forge product version, d.forge = some forge ∧ d.product = some product ∧
    d.version = some version ∧ Coordinates.Legal forge product version
  generator : ∃ generator, d.generator = some generator ∧ generator ≠ ""
  types : ∃ t, d.types = some t ∧ t.Acceptable
  calls : ∃ c, d.calls = some c ∧ c.Acceptable
  nodes : ∃ nodes, d.nodes = some nodes

/-- What a document that is decoded told, and what it was decoded to. -/
theorem decode_eq_ok_iff {d : Document} {decoded : Decoded} :
    d.decode = .ok decoded ↔
      ∃ forge product version generator t c nodes hierarchy calls,
        (d.forge = some forge ∧ d.product = some product ∧ d.version = some version ∧
          d.generator = some generator) ∧
        (d.types = some t ∧ t.Tells hierarchy ∧ hierarchy.Partitioned) ∧
        (d.calls = some c ∧ decodeCallGraph c = .ok calls) ∧ d.nodes = some nodes ∧
        decoded.warnings = (decodeTimestamp d.timestamp).2 ∧
        Revision.new forge product version (decodeTimestamp d.timestamp).1 nodes generator
          hierarchy calls = .ok decoded.revision := by
  unfold decode
  simp only [bind_eq_ok_iff, require_eq_ok_iff, decodeHierarchy_eq_ok_iff]
  constructor
  · rintro ⟨forge, hasForge, product, hasProduct, version, hasVersion, generator, hasGenerator,
      t, hasTypes, hierarchy, told, c, hasCalls, calls, callsOk, nodes, hasNodes, revision, made,
      done⟩
    cases done
    exact ⟨forge, product, version, generator, t, c, nodes, hierarchy, calls,
      ⟨hasForge, hasProduct, hasVersion, hasGenerator⟩, ⟨hasTypes, told⟩, ⟨hasCalls, callsOk⟩,
      hasNodes, rfl, made⟩
  · rintro ⟨forge, product, version, generator, t, c, nodes, hierarchy, calls,
      ⟨hasForge, hasProduct, hasVersion, hasGenerator⟩, ⟨hasTypes, told⟩, ⟨hasCalls, callsOk⟩,
      hasNodes, noticed, made⟩
    obtain ⟨revision, warnings⟩ := decoded
    cases noticed
    exact ⟨forge, hasForge, product, hasProduct, version, hasVersion, generator, hasGenerator,
      t, hasTypes, hierarchy, told, c, hasCalls, calls, callsOk, nodes, hasNodes, revision, made,
      rfl⟩

theorem exists_decode_iff {d : Document} : (∃ decoded, d.decode = .ok decoded) ↔ d.Acceptable := by
  simp only [decode_eq_ok_iff]
  constructor
  · rintro ⟨decoded, forge, product, version, generator, t, c, nodes, hierarchy, calls,
      ⟨hasForge, hasProduct, hasVersion, hasGenerator⟩, ⟨hasTypes, told⟩, ⟨hasCalls, callsOk⟩,
      hasNodes, _, made⟩
    obtain ⟨named, legal⟩ := Revision.exists_new_iff.1 ⟨_, made⟩
    exact ⟨⟨forge, product, version, hasForge, hasProduct, hasVersion, legal⟩,
      ⟨generator, hasGenerator, named⟩, ⟨t, hasTypes, Types.exists_tells_iff.1 ⟨_, told⟩⟩,
      ⟨c, hasCalls, exists_decodeCallGraph_iff.1 ⟨_, callsOk⟩⟩, nodes, hasNodes⟩
  · rintro ⟨⟨forge, product, version, hasForge, hasProduct, hasVersion, legal⟩,
      ⟨generator, hasGenerator, named⟩, ⟨t, hasTypes, acceptable⟩, ⟨c, hasCalls, callsOk⟩,
      nodes, hasNodes⟩
    obtain ⟨hierarchy, told⟩ := Types.exists_tells_iff.2 acceptable
    obtain ⟨calls, callsOk⟩ := exists_decodeCallGraph_iff.2 callsOk
    obtain ⟨revision, made⟩ := Revision.exists_new_iff.2 ⟨named, legal⟩
    exact ⟨⟨revision, _⟩, forge, product, version, generator, t, c, nodes, hierarchy, calls,
      ⟨hasForge, hasProduct, hasVersion, hasGenerator⟩, ⟨hasTypes, told⟩, ⟨hasCalls, callsOk⟩,
      hasNodes, rfl, made⟩

/-- Just the acceptable documents are decoded. The hierarchy then holds the types and methods of
the document, each with all that is told about it, and the time decides about nothing but the
warnings. -/
theorem decode_iff_acceptable (d : Document) :
    ((∃ decoded, d.decode = .ok decoded) ↔ d.Acceptable) ∧
    (∀ decoded, d.decode = .ok decoded →
      (∃ t, d.types = some t ∧ t.Tells decoded.revision.hierarchy) ∧
      (decoded.warnings = [] ↔ ∃ seconds, d.timestamp = some (.int seconds)) ∧
      (decoded.warnings = [.missingTimestamp] ↔ d.timestamp = none ∨ d.timestamp = some .null) ∧
      ∀ value, decoded.warnings = [.invalidTimestamp value] ↔
        d.timestamp = some value ∧ value ≠ .null ∧ ∀ seconds, value ≠ .int seconds) ∧
    ∀ time, (∃ decoded, { d with timestamp := time }.decode = .ok decoded) ↔
      ∃ decoded, d.decode = .ok decoded := by
  refine ⟨exists_decode_iff, ?_, ?_⟩
  · intro decoded ok
    obtain ⟨_, _, _, _, t, _, _, _, _, _, ⟨hasTypes, told, _⟩, _, _, noticed, made⟩ :=
      decode_eq_ok_iff.1 ok
    obtain ⟨_, _, _, _, _, _, same⟩ := Revision.new_eq_ok_iff.1 made
    rw [noticed]
    exact ⟨⟨t, hasTypes, same ▸ told⟩, warnings_decodeTimestamp d.timestamp⟩
  · intro time
    rw [exists_decode_iff, exists_decode_iff]
    constructor
    · rintro ⟨coordinates, generator, types, calls, nodes⟩
      exact ⟨coordinates, generator, types, calls, nodes⟩
    · rintro ⟨coordinates, generator, types, calls, nodes⟩
      exact ⟨coordinates, generator, types, calls, nodes⟩

theorem decode_iff_acceptable_undated :
    ∃ d : Document, d.Acceptable ∧ ∃ decoded, d.decode = .ok decoded ∧
      decoded.warnings = [.invalidTimestamp (.text "today")] := by
  let method (uri : String) : MethodEntry := ⟨some uri, some ∅⟩
  let type : TypeEntry := ⟨some "T.java",
    some (.ofList [("10", method "/a/T.f()V"), ("7", method "/a/T.g()V")]), some [],
    some ["/a/I"], some "public", some false⟩
  let d : Document := ⟨some "mvn", some "lib", some "1.0", some "test", some (.text "today"),
    some ⟨some (.ofList [("/a/T", type)]), some ∅, some ∅⟩,
    some ⟨some [⟨"10", "7", ∅⟩], some [], some []⟩, some 2⟩
  have decodes : d.decode.isOk := by decide +kernel
  obtain ⟨decoded, ok⟩ := exists_eq_ok_of_isOk decodes
  obtain ⟨acceptable, told, _⟩ := decode_iff_acceptable d
  obtain ⟨_, _, _, invalid⟩ := told decoded ok
  refine ⟨d, acceptable.1 ⟨decoded, ok⟩, decoded, ok, (invalid (.text "today")).2 ⟨rfl, ?_, ?_⟩⟩
  · rintro ⟨⟩
  · rintro seconds ⟨⟩

end Document

end RevisionGraph

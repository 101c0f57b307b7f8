import RevisionGraph.Document.Encode
import RevisionGraph.Document.Decode
import RevisionGraph.Proofs.Document.Walks
import RevisionGraph.Proofs.Hierarchy.Built

/-!
# Types read back

Methods are written in the order of their ids and read in the order of the texts of the ids, which
makes no difference to a table: `Document.decodeType_ofType`. A built hierarchy reads back from its
document: `Document.decodeHierarchy_ofHierarchy`.
-/

namespace RevisionGraph.Document

theorem idText_injective {i j : Int64} (same : idText i = idText j) : i = j := by
  have read := congrArg readId? same
  rw [readId?_idText, readId?_idText] at read
  exact Option.some.inj read

theorem decodeId_idText (path : FieldPath) (id : Int64) : decodeId path (idText id) = .ok id := by
  unfold decodeId
  rw [readId?_idText]

theorem mapM_parse_text (uris : List Uri) : (uris.map Uri.text).mapM Uri.parse = .ok uris := by
  have read : (uris.map Uri.text).mapM Uri.parse = .ok (uris.map id) :=
    mapM_map_eq_ok fun uri _ => uri.parse_text
  rwa [List.map_id] at read

/-! ### Method tables -/

def methodRow (row : Int64 × Method) : String × MethodEntry :=
  (idText row.1, MethodEntry.ofMethod row.2)

theorem decodeMethod_of_new (path : FieldPath) {t : MethodTable} {row : Int64 × Method}
    (newUri : t.containsUri row.2.uri = false) (newId : t.containsId row.1 = false) :
    decodeMethod path t (methodRow row).1 (methodRow row).2 = .ok (t.insert row.2 row.1).2 := by
  unfold decodeMethod methodRow MethodEntry.ofMethod require
  simp only [decodeId_idText, ok_bind, Uri.parse_text, newUri, newId, Bool.or_self]
  rfl

theorem decodeMethods_rows (path : FieldPath) {rows : List (Int64 × Method)}
    (distinct : MethodTable.DistinctRows rows) :
    (rows.map methodRow).foldlM (fun t entry => decodeMethod path t entry.1 entry.2) ∅ =
      .ok (MethodTable.ofList rows) := by
  -- From the end, since what is read before a row has to be known to miss its id and its URI.
  induction rows using List.reverseRecOn with
  | nil => rfl
  | append_singleton rows row ih =>
    have others := distinct.sublist (List.sublist_append_left rows [row])
    obtain ⟨unboundUri, unboundId⟩ := others.concat_iff.1 distinct
    rw [List.map_append, List.foldlM_append, ih others, ok_bind, MethodTable.ofList_concat]
    exact (bind_pure _).trans (decodeMethod_of_new path unboundUri unboundId)

theorem nodup_methodRow (t : MethodTable) : (t.toList.map fun row => (methodRow row).1).Nodup := by
  have ids : (t.toList.map Prod.fst).Nodup := t.byId.nodup_keys
  have texts := ids.map fun _ _ => idText_injective
  rwa [List.map_map] at texts

theorem decodeMethods_ofTable (path : FieldPath) {t : MethodTable} (inStep : t.InStep) :
    decodeMethods path (.ofList (t.toList.map methodRow)) = .ok t := by
  obtain ⟨rows, perm, listed⟩ := SortedMap.exists_rows_of_ofList (nodup_methodRow t)
  obtain ⟨distinct, same⟩ := inStep.ofList_eq perm
  unfold decodeMethods
  rw [listed, decodeMethods_rows path distinct, same]

/-! ### Types -/

theorem decodeType_ofType (path : FieldPath) {type : TypeDecl} (inStep : type.methods.InStep) :
    decodeType path (TypeEntry.ofType type) = .ok type := by
  have methods := decodeMethods_ofTable (path.field "methods") inStep
  have access := Access.ofName_name type.access
  unfold decodeType TypeEntry.ofType require
  simp only [ok_bind, mapM_parse_text, access]
  show (decodeMethods _ (.ofList (type.methods.toList.map methodRow)) >>= _) = _
  rw [methods]
  rfl

def typeRow (entry : Uri × TypeDecl) : String × TypeEntry :=
  (entry.1.text, TypeEntry.ofType entry.2)

/-- URIs are ordered as their texts are. -/
theorem toList_encodeTypes (types : TypeMap) :
    (encodeTypes types).toList = types.toList.map typeRow := by
  apply SortedMap.toList_ofList
  exact List.pairwise_map.2 types.ascending

theorem decodeTypeEntry_typeRow (path : FieldPath) {entry : Uri × TypeDecl}
    (inStep : entry.2.methods.InStep) : decodeTypeEntry path (typeRow entry) = .ok entry := by
  unfold decodeTypeEntry typeRow
  simp only [Uri.parse_text, ok_bind, decodeType_ofType _ inStep]
  rfl

theorem decodeTypes_encodeTypes (scope : Scope) {types : TypeMap}
    (inStep : ∀ uri type, types.get? uri = some type → type.methods.InStep) :
    decodeTypes scope (some (encodeTypes types)) = .ok types := by
  have read : (types.toList.map typeRow).mapM (decodeTypeEntry (scopePath scope)) =
      .ok (types.toList.map id) := by
    apply mapM_map_eq_ok
    rintro ⟨uri, type⟩ mem
    exact decodeTypeEntry_typeRow _ (inStep uri type (SortedMap.mem_toList_iff.1 mem))
  unfold decodeTypes require
  rw [ok_bind, toList_encodeTypes, read, ok_bind, List.map_id, SortedMap.ofList_toList]
  rfl

theorem decodeHierarchy_ofHierarchy {h : Hierarchy} (built : h.Built) :
    decodeHierarchy (Types.ofHierarchy h) = .ok h := by
  have read (scope : Scope) :
      decodeTypes scope (some (encodeTypes (h.get scope))) = .ok (h.get scope) :=
    decodeTypes_encodeTypes scope fun _ _ held => built.table held
  have internal : decodeTypes .internal (some (encodeTypes h.internal)) = .ok h.internal :=
    read .internal
  have external : decodeTypes .external (some (encodeTypes h.external)) = .ok h.external :=
    read .external
  have resolved : decodeTypes .resolved (some (encodeTypes h.resolved)) = .ok h.resolved :=
    read .resolved
  unfold decodeHierarchy Types.ofHierarchy
  dsimp only
  rw [internal, ok_bind, external, ok_bind, resolved, ok_bind]
  exact Hierarchy.ofScopes_eq_ok_iff.2 ⟨rfl, built.partitioned⟩

end RevisionGraph.Document

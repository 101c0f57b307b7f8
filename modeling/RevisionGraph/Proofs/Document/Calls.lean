import RevisionGraph.Proofs.CallGraph.Moves
import RevisionGraph.Proofs.Document.Types

/-!
# Calls read back

Pairs are written once each, so none of them is merged with another as they are read, and the call
graph reads back from its document: `Document.decodeCallGraph_ofCallGraph`.
-/

namespace RevisionGraph.Document

open Json (Metadata)

def siteRow (entry : Int64 × Metadata) : String × Metadata := (idText entry.1, entry.2)

theorem nodup_siteRow (sites : CallSites) :
    (sites.toList.map fun entry => (siteRow entry).1).Nodup := by
  have texts := sites.nodup_keys.map fun _ _ => idText_injective
  rwa [SortedMap.keys, List.map_map] at texts

theorem decodeSites_encodeSites (path : FieldPath) (sites : CallSites) :
    decodeSites path (encodeSites sites) = .ok sites := by
  obtain ⟨rows, perm, listed⟩ := SortedMap.exists_rows_of_ofList (nodup_siteRow sites)
  have read : (rows.map siteRow).mapM (fun entry =>
      (do return (← decodeId path entry.1, entry.2) : Except Error (Int64 × Metadata))) =
        .ok (rows.map id) := by
    apply mapM_map_eq_ok
    intro row _
    unfold siteRow
    rw [decodeId_idText]
    rfl
  have distinct : (rows.map Prod.fst).Nodup := (perm.map Prod.fst).nodup_iff.2 sites.nodup_keys
  have same : SortedMap.ofList rows = sites :=
    (SortedMap.ofList_eq_iff distinct).2 fun entry => perm.mem_iff
  unfold decodeSites encodeSites
  show (do return .ofList (← (SortedMap.ofList (sites.toList.map siteRow)).toList.mapM _)
    : Except Error CallSites) = _
  rw [listed, read, List.map_id, ok_bind, same]
  rfl

theorem merge_of_absent {calls : CallMap} {pair : CallPair} (absent : calls.get? pair = none)
    (sites : CallSites) : CallMap.merge calls pair sites = calls.insert pair sites := by
  unfold CallMap.merge
  rw [absent, Option.getD_none, CallSites.empty_merge]

theorem decodeCall_ofCall (path : FieldPath) {calls : CallMap} {pair : CallPair}
    (absent : calls.get? pair = none) (sites : CallSites) :
    decodeCall path calls (CallEntry.ofCall pair sites) = .ok (calls.insert pair sites) := by
  unfold decodeCall CallEntry.ofCall
  simp only [decodeId_idText, ok_bind, decodeSites_encodeSites]
  exact congrArg Except.ok (merge_of_absent absent sites)

theorem decodeCalls_rows (relation : Relation) {rows : List (CallPair × CallSites)}
    (distinct : (rows.map Prod.fst).Nodup) :
    decodeCalls relation (rows.map fun row => CallEntry.ofCall row.1 row.2) =
      .ok (SortedMap.ofList rows) := by
  induction rows using List.reverseRecOn with
  | nil => rfl
  | append_singleton rows row ih =>
    rw [List.map_append, List.map_singleton] at distinct
    obtain ⟨others, _, apart⟩ := List.nodup_append'.1 distinct
    have absent : (SortedMap.ofList rows).get? row.1 = none := by
      rw [SortedMap.get?_ofList others, lookupEntry_eq_none_iff]
      exact List.disjoint_singleton.1 apart
    have before := ih others
    have after : SortedMap.ofList (rows ++ [row]) = (SortedMap.ofList rows).insert row.1 row.2 :=
      SortedMap.insertMany_append _ rows [row]
    unfold decodeCalls at before ⊢
    rw [List.map_append, List.foldlM_append, before, ok_bind, after]
    exact (bind_pure _).trans (decodeCall_ofCall _ absent row.2)

theorem decodeCalls_encodeCalls (relation : Relation) (calls : CallMap) :
    decodeCalls relation (encodeCalls calls) = .ok calls := by
  unfold encodeCalls
  rw [decodeCalls_rows relation calls.nodup_keys, SortedMap.ofList_toList]

theorem decodeCallGraph_ofCallGraph (g : CallGraph) :
    decodeCallGraph (Calls.ofCallGraph g) = .ok g := by
  unfold decodeCallGraph Calls.ofCallGraph decodeRelation require
  simp only [ok_bind, decodeCalls_encodeCalls]
  rfl

end RevisionGraph.Document

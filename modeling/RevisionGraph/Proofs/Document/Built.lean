import RevisionGraph.Document.Decode
import RevisionGraph.Proofs.Document.Walks
import RevisionGraph.Proofs.Hierarchy.Built

/-!
# What is decoded is built

The decoder makes tables by inserting methods and checks that no type stands in two scopes.
-/

namespace RevisionGraph.Document

theorem decodeMethod_built {path : FieldPath} {t next : MethodTable} {key : String}
    {e : MethodEntry} (built : t.Built) (ok : decodeMethod path t key e = .ok next) :
    next.Built := by
  unfold decodeMethod at ok
  obtain ⟨id, _, ok⟩ := bind_eq_ok_iff.1 ok
  obtain ⟨text, _, ok⟩ := bind_eq_ok_iff.1 ok
  obtain ⟨uri, _, ok⟩ := bind_eq_ok_iff.1 ok
  obtain ⟨metadata, _, ok⟩ := bind_eq_ok_iff.1 ok
  split at ok
  · cases ok
  · cases ok
    exact built.insert ⟨uri, metadata⟩ id

theorem decodeType_built {path : FieldPath} {e : TypeEntry} {type : TypeDecl}
    (ok : decodeType path e = .ok type) : type.methods.Built := by
  unfold decodeType at ok
  obtain ⟨_, _, ok⟩ := bind_eq_ok_iff.1 ok
  obtain ⟨methods, _, ok⟩ := bind_eq_ok_iff.1 ok
  obtain ⟨table, walked, ok⟩ := bind_eq_ok_iff.1 ok
  obtain ⟨_, _, ok⟩ := bind_eq_ok_iff.1 ok
  obtain ⟨_, _, ok⟩ := bind_eq_ok_iff.1 ok
  obtain ⟨_, _, ok⟩ := bind_eq_ok_iff.1 ok
  obtain ⟨_, _, ok⟩ := bind_eq_ok_iff.1 ok
  obtain ⟨_, _, ok⟩ := bind_eq_ok_iff.1 ok
  obtain ⟨_, _, ok⟩ := bind_eq_ok_iff.1 ok
  obtain ⟨_, _, made⟩ := bind_eq_ok_iff.1 ok
  cases made
  exact foldlM_invariant (fun _ _ _ _ step built => decodeMethod_built built step)
    MethodTable.built_empty walked

theorem decodeTypes_built {scope : Scope} {entries : Option (SortedMap String TypeEntry)}
    {types : TypeMap} (ok : decodeTypes scope entries = .ok types) {uri : Uri} {type : TypeDecl}
    (held : types.get? uri = some type) : type.methods.Built := by
  unfold decodeTypes at ok
  obtain ⟨entries, _, ok⟩ := bind_eq_ok_iff.1 ok
  obtain ⟨decoded, walked, made⟩ := bind_eq_ok_iff.1 ok
  cases made
  obtain ⟨entry, _, ok⟩ := mem_of_mapM_eq_ok walked (SortedMap.mem_of_get?_ofList held)
  unfold decodeTypeEntry at ok
  obtain ⟨_, _, ok⟩ := bind_eq_ok_iff.1 ok
  obtain ⟨type, ok, made⟩ := bind_eq_ok_iff.1 ok
  cases made
  exact decodeType_built ok

theorem decodeHierarchy_built {t : Types} {h : Hierarchy} (ok : decodeHierarchy t = .ok h) :
    h.Built := by
  unfold decodeHierarchy at ok
  obtain ⟨internal, internalOk, ok⟩ := bind_eq_ok_iff.1 ok
  obtain ⟨external, externalOk, ok⟩ := bind_eq_ok_iff.1 ok
  obtain ⟨resolved, resolvedOk, ok⟩ := bind_eq_ok_iff.1 ok
  refine .ofScopes ?_ ok
  intro types mem uri type held
  simp only [List.mem_cons, List.not_mem_nil, or_false] at mem
  rcases mem with rfl | rfl | rfl
  · exact decodeTypes_built internalOk held
  · exact decodeTypes_built externalOk held
  · exact decodeTypes_built resolvedOk held

end RevisionGraph.Document

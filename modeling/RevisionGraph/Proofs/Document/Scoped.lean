import RevisionGraph.Proofs.Document.Acceptance
import RevisionGraph.Proofs.Hierarchy.Methods

/-!
# Methods by scope and id

The decoder rejects an id that comes twice in one type, but not one that comes in two types of a
scope. The map of all methods by scope and id loses methods of a decoded document just where that is
so (`Document.methodsByScope_of_decode`).
-/

namespace RevisionGraph.Document

/-! ### Ids of a document -/

def TypeEntry.methodKeys (e : TypeEntry) : List String := (e.methods.map SortedMap.keys).getD []

/-- The keys of all methods of a scope, type by type. -/
def Types.methodKeys (t : Types) (scope : Scope) : List String :=
  ((t.get scope).map fun entries => entries.values.flatMap TypeEntry.methodKeys).getD []

/-- No id is given to two methods of a scope, however it is spelled. -/
def IdsApart (d : Document) : Prop :=
  ∀ t, d.types = some t → ∀ scope, ((t.methodKeys scope).map readId?).Nodup

/-- Two types of one scope, with a method each under these keys. -/
def ofTwoKeys (first second : String) : Document :=
  let type (key uri : String) : TypeEntry := ⟨some "T.java",
    some (.ofList [(key, ⟨some uri, some ∅⟩)]), some [], some [], some "public", some false⟩
  ⟨some "mvn", some "lib", some "1.0", some "test", some (.int 5),
    some ⟨some (.ofList [("/a/T", type first "/a/T.f()V"), ("/a/U", type second "/a/U.g()V")]),
      some ∅, some ∅⟩,
    some ⟨some [], some [], some []⟩, some 2⟩

theorem TypeEntry.Tells.perm_ids {e : TypeEntry} {type : TypeDecl} (told : e.Tells type) :
    (e.methodKeys.map readId?).Perm ((type.methods.toList.map Prod.fst).map some) := by
  obtain ⟨methods, rows, held, each, perm⟩ := told.methods
  have ids : methods.keys.map readId? = (rows.map Prod.fst).map some := by
    rw [SortedMap.keys, List.map_map, List.map_map]
    exact map_eq_map_of_forall₂ (fun _ _ row => row.id) each
  unfold methodKeys
  rw [held, Option.map_some, Option.getD_some, ids]
  exact (perm.map Prod.fst).map some

/-- The ids of a scope are those that its keys spell. -/
theorem Types.Tells.perm_ids {t : Types} {h : Hierarchy} (told : t.Tells h) (scope : Scope) :
    ((t.methodKeys scope).map readId?).Perm ((h.ids scope).map some) := by
  obtain ⟨entries, held, each⟩ := told scope
  unfold methodKeys Hierarchy.ids SortedMap.values
  rw [held, Option.map_some, Option.getD_some, Hierarchy.methods_eq, List.flatMap_map]
  simp only [List.map_flatMap]
  exact perm_flatMap_of_forall₂ (fun _ _ row => row.2.perm_ids) each

theorem Types.Tells.nodup_iff {t : Types} {h : Hierarchy} (told : t.Tells h) :
    (∀ scope, (h.ids scope).Nodup) ↔ ∀ scope, ((t.methodKeys scope).map readId?).Nodup := by
  have injective : Function.Injective (some : Int64 → Option Int64) := fun _ _ => Option.some.inj
  simp only [(told.perm_ids _).nodup_iff, List.nodup_map_iff injective]

theorem types_of_decode {d : Document} {decoded : Decoded} (ok : d.decode = .ok decoded) :
    ∃ t, d.types = some t ∧ t.Tells decoded.revision.hierarchy := by
  obtain ⟨_, _, _, _, t, _, _, _, _, _, ⟨hasTypes, told, _⟩, _, _, _, made⟩ :=
    decode_eq_ok_iff.1 ok
  obtain ⟨_, _, _, _, _, _, same⟩ := Revision.new_eq_ok_iff.1 made
  exact ⟨t, hasTypes, same ▸ told⟩

/-- The ids of a document that can be decoded are apart just if those of its revision are. -/
theorem idsApart_iff_of_decode {d : Document} {decoded : Decoded} (ok : d.decode = .ok decoded) :
    d.IdsApart ↔ ∀ scope, (decoded.revision.hierarchy.ids scope).Nodup := by
  obtain ⟨t, hasTypes, told⟩ := types_of_decode ok
  rw [told.nodup_iff]
  constructor
  · intro apart
    exact apart t hasTypes
  · rintro distinct _ same
    cases hasTypes.symm.trans same
    exact distinct

/-! ### Methods of a decoded revision -/

/-- The map by scope and id has an entry for each scope and id of a method, and it is one of the
methods with them. It has all methods just if no id is given to two methods of a scope. -/
theorem methodsByScope_of_decode {d : Document} {decoded : Decoded} (ok : d.decode = .ok decoded) :
    (decoded.revision.methodsByScope.size = decoded.revision.hierarchy.methodCount ↔ d.IdsApart) ∧
    (d.IdsApart → ∀ scope id method, (id, method) ∈ decoded.revision.hierarchy.methods scope →
      decoded.revision.methodsByScope.get? ⟨scope, id⟩ = some method) ∧
    (∀ scope id, decoded.revision.methodsByScope.contains ⟨scope, id⟩ ↔
      id ∈ decoded.revision.hierarchy.ids scope) ∧
    ∀ scope id method, decoded.revision.methodsByScope.get? ⟨scope, id⟩ = some method →
      (id, method) ∈ decoded.revision.hierarchy.methods scope := by
  have apart := idsApart_iff_of_decode ok
  refine ⟨Revision.size_methodsByScope_iff.trans apart.symm, ?_, ?_, ?_⟩
  · intro distinct _ _ _ mem
    exact Revision.get?_methodsByScope (apart.1 distinct) mem
  · exact fun _ _ => Revision.contains_methodsByScope_iff
  · exact fun _ _ _ held => Revision.mem_of_get?_methodsByScope held

theorem methodsByScope_of_decode_two :
    ∃ decoded, (ofTwoKeys "7" "10").decode = .ok decoded ∧ (ofTwoKeys "7" "10").IdsApart ∧
      decoded.revision.methodsByScope.size = decoded.revision.hierarchy.methodCount := by
  have decodes : (ofTwoKeys "7" "10").decode.isOk := by decide +kernel
  have apart : (ofTwoKeys "7" "10").IdsApart := by
    rintro t ⟨⟩ scope
    cases scope <;> decide +kernel
  obtain ⟨decoded, ok⟩ := exists_eq_ok_of_isOk decodes
  exact ⟨decoded, ok, apart, (methodsByScope_of_decode ok).1.2 apart⟩

/-- A document is decoded though two of its types give one id to a method each, and the map by scope
and id then lacks one of the methods. -/
theorem not_methodsByScope_of_decode :
    ¬∀ (d : Document) (decoded : Decoded), d.decode = .ok decoded →
      (∀ scope id method, (id, method) ∈ decoded.revision.hierarchy.methods scope →
        decoded.revision.methodsByScope.get? ⟨scope, id⟩ = some method) ∧
      decoded.revision.methodsByScope.size = decoded.revision.hierarchy.methodCount := by
  intro all
  have loses : (ofTwoKeys "0" "0").decode.toOption.map (fun decoded =>
      (decoded.revision.methodsByScope.size, decoded.revision.hierarchy.methodCount)) =
        some (1, 2) := by decide +kernel
  cases ok : (ofTwoKeys "0" "0").decode with
  | error =>
    rw [ok] at loses
    cases loses
  | ok decoded =>
    rw [ok] at loses
    obtain ⟨one, two⟩ := Prod.mk.inj (Option.some.inj loses)
    have same := (all _ decoded ok).2
    omega

end RevisionGraph.Document

import RevisionGraph.Hierarchy.Partitioned
import RevisionGraph.Proofs.MethodTable.Rows

/-!
# What a hierarchy holds

In a partitioned hierarchy `Hierarchy.scopeOf?` is the only scope that holds a type, and an
insertion is seen under its own URI only: `Hierarchy.Partitioned.type?_insert`.
-/

namespace RevisionGraph.Hierarchy

theorem type?_empty (scope : Scope) (uri : Uri) : (∅ : Hierarchy).type? scope uri = none := by
  cases scope <;> rfl

/-- A hierarchy is determined by the type in each scope and under each URI. -/
theorem ext_type? {h k : Hierarchy} (same : ∀ scope uri, h.type? scope uri = k.type? scope uri) :
    h = k := by
  obtain ⟨internal, external, resolved⟩ := h
  obtain ⟨internal', external', resolved'⟩ := k
  have sameInternal : internal = internal' := SortedMap.ext_get? (same .internal)
  have sameExternal : external = external' := SortedMap.ext_get? (same .external)
  have sameResolved : resolved = resolved' := SortedMap.ext_get? (same .resolved)
  rw [sameInternal, sameExternal, sameResolved]

theorem contains_iff {h : Hierarchy} {scope : Scope} {uri : Uri} :
    (h.get scope).contains uri ↔ ∃ type, h.type? scope uri = some type :=
  SortedMap.contains_iff

theorem type?_of_scopeOf? {h : Hierarchy} {scope : Scope} {uri : Uri}
    (found : h.scopeOf? uri = some scope) : ∃ type, h.type? scope uri = some type := by
  unfold scopeOf? at found
  have held := List.find?_some found
  exact contains_iff.1 held

theorem scopeOf?_eq_none_iff {h : Hierarchy} {uri : Uri} :
    h.scopeOf? uri = none ↔ ∀ scope, h.type? scope uri = none := by
  rw [scopeOf?, List.find?_eq_none]
  constructor
  · intro absent scope
    have notHere := absent scope (Scope.mem_all scope)
    exact Option.eq_none_iff_forall_ne_some.2 fun type held => notHere (contains_iff.2 ⟨type, held⟩)
  · intro absent scope _ held
    obtain ⟨type, held⟩ := contains_iff.1 held
    cases (absent scope).symm.trans held

/-- Scopes are walked from the internal one on. -/
theorem scopeOf?_eq_internal_iff {h : Hierarchy} {uri : Uri} :
    h.scopeOf? uri = some .internal ↔ ∃ type, h.type? .internal uri = some type := by
  constructor
  · exact type?_of_scopeOf?
  · intro held
    have first : (h.get .internal).contains uri = true := contains_iff.2 held
    simp only [scopeOf?, Scope.all, List.find?_cons, first]

theorem Partitioned.scope_eq {h : Hierarchy} (parted : h.Partitioned) {scope other : Scope}
    {uri : Uri} {type type' : TypeDecl} (held : h.type? scope uri = some type)
    (also : h.type? other uri = some type') : scope = other :=
  parted scope other uri (contains_iff.2 ⟨type, held⟩) (contains_iff.2 ⟨type', also⟩)

theorem Partitioned.scopeOf?_eq_some {h : Hierarchy} (parted : h.Partitioned) {scope : Scope}
    {uri : Uri} {type : TypeDecl} (held : h.type? scope uri = some type) :
    h.scopeOf? uri = some scope := by
  cases found : h.scopeOf? uri with
  | none => cases (scopeOf?_eq_none_iff.1 found scope).symm.trans held
  | some other =>
    obtain ⟨type', also⟩ := type?_of_scopeOf? found
    rw [parted.scope_eq held also]

theorem move_of_held {h : Hierarchy} {uri : Uri} {source : Scope} {type : TypeDecl}
    (held : h.type? source uri = some type) (target : Scope) :
    h.move uri source target = .ok ((h.remove source uri).put target uri type) := by
  rw [Hierarchy.move, held]

theorem Partitioned.type?_move {h moved : Hierarchy} (parted : h.Partitioned) {uri : Uri}
    {source target : Scope} {type : TypeDecl} (held : h.type? source uri = some type)
    (ok : h.move uri source target = .ok moved) (scope : Scope) (uri' : Uri) :
    moved.type? scope uri' =
      if uri' = uri then if scope = target then some type else none
      else h.type? scope uri' := by
  cases (move_of_held held target).symm.trans ok
  rw [type?_put, type?_remove]
  by_cases same : uri' = uri
  · subst same
    by_cases here : scope = target
    · simp [here]
    · by_cases there : scope = source
      · simp [there]
      · have absent : h.type? scope uri' = none :=
          Option.eq_none_iff_forall_ne_some.2 fun _ also => there (parted.scope_eq also held)
        simp [here, there, absent]
  · simp [same]

theorem type?_insert_self (h : Hierarchy) (scope : Scope) (uri : Uri) (type : TypeDecl) :
    (h.insert scope uri type).2.type? scope uri = some type := by
  unfold Hierarchy.insert
  split <;> rw [type?_put, if_pos ⟨rfl, rfl⟩]

theorem Partitioned.type?_insert {h : Hierarchy} (parted : h.Partitioned) (scope : Scope)
    (uri : Uri) (type : TypeDecl) (scope' : Scope) (uri' : Uri) :
    (h.insert scope uri type).2.type? scope' uri' =
      if uri' = uri then if scope' = scope then some type else none else h.type? scope' uri' := by
  have elsewhere (found : h.rival? scope uri = none) (apart : scope' ≠ scope) :
      h.type? scope' uri = none := rival?_eq_none_iff.1 found scope' apart
  unfold Hierarchy.insert
  split <;> rename_i found
  · rename_i rival
    obtain ⟨_, held⟩ := rival?_eq_some found
    obtain ⟨type', held⟩ := Option.isSome_iff_exists.1 held
    rw [type?_put, type?_remove]
    by_cases same : uri' = uri
    · subst same
      by_cases here : scope' = scope
      · simp [here]
      · by_cases there : scope' = rival
        · simp [there]
        · have absent : h.type? scope' uri' = none :=
            Option.eq_none_iff_forall_ne_some.2 fun _ also => there (parted.scope_eq also held)
          simp [here, there, absent]
    · simp [same]
  · rw [type?_put]
    by_cases same : uri' = uri
    · subst same
      by_cases here : scope' = scope
      · simp [here]
      · simp [here, elsewhere found here]
    · simp [same]

/-! ### What all types have -/

/-- Every type has the property. -/
def AllTypes (P : TypeDecl → Prop) (h : Hierarchy) : Prop :=
  ∀ scope uri type, h.type? scope uri = some type → P type

section AllTypes

variable {h : Hierarchy} {P : TypeDecl → Prop}

theorem allTypes_empty : (∅ : Hierarchy).AllTypes P := by
  intro scope uri type held
  rw [type?_empty] at held
  cases held

theorem AllTypes.put (all : h.AllTypes P) (scope : Scope) (uri : Uri) {type : TypeDecl}
    (added : P type) : (h.put scope uri type).AllTypes P := by
  intro scope' uri' type' held
  rw [type?_put] at held
  split at held
  · cases held
    exact added
  · exact all scope' uri' type' held

theorem AllTypes.remove (all : h.AllTypes P) (scope : Scope) (uri : Uri) :
    (h.remove scope uri).AllTypes P := by
  intro scope' uri' type' held
  rw [type?_remove] at held
  split at held
  · cases held
  · exact all scope' uri' type' held

theorem AllTypes.insert (all : h.AllTypes P) (scope : Scope) (uri : Uri) {type : TypeDecl}
    (added : P type) : (h.insert scope uri type).2.AllTypes P := by
  unfold Hierarchy.insert
  split
  · exact (all.remove _ uri).put scope uri added
  · exact all.put scope uri added

end AllTypes

/-! ### Methods of a scope -/

theorem mem_types_iff {h : Hierarchy} {scope : Scope} {type : TypeDecl} :
    type ∈ h.types scope ↔ ∃ uri, h.type? scope uri = some type := by
  unfold types SortedMap.values type?
  rw [List.mem_map]
  constructor
  · rintro ⟨⟨uri, _⟩, mem, rfl⟩
    exact ⟨uri, SortedMap.mem_toList_iff.1 mem⟩
  · rintro ⟨uri, held⟩
    exact ⟨(uri, type), SortedMap.mem_toList_iff.2 held, rfl⟩

theorem mem_methods_iff {h : Hierarchy} {scope : Scope} {id : Int64} {method : Method} :
    (id, method) ∈ h.methods scope ↔
      ∃ uri type, h.type? scope uri = some type ∧ type.methods.get? id = some method := by
  unfold methods
  rw [List.mem_flatMap]
  constructor
  · rintro ⟨type, mem, row⟩
    obtain ⟨uri, held⟩ := mem_types_iff.1 mem
    exact ⟨uri, type, held, MethodTable.mem_toList_iff.1 row⟩
  · rintro ⟨uri, type, held, row⟩
    exact ⟨type, mem_types_iff.2 ⟨uri, held⟩, MethodTable.mem_toList_iff.2 row⟩

theorem mem_ids_iff {h : Hierarchy} {scope : Scope} {id : Int64} :
    id ∈ h.ids scope ↔
      ∃ uri type, h.type? scope uri = some type ∧ type.methods.containsId id := by
  unfold ids
  rw [List.mem_map]
  constructor
  · rintro ⟨⟨_, method⟩, mem, rfl⟩
    obtain ⟨uri, type, held, row⟩ := mem_methods_iff.1 mem
    exact ⟨uri, type, held, SortedMap.contains_iff.2 ⟨method, row⟩⟩
  · rintro ⟨uri, type, held, has⟩
    obtain ⟨method, row⟩ := SortedMap.contains_iff.1 has
    exact ⟨(id, method), mem_methods_iff.2 ⟨uri, type, held, row⟩, rfl⟩

end RevisionGraph.Hierarchy

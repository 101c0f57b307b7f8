import RevisionGraph.Proofs.Hierarchy.Methods

/-!
# The two maps of methods

An id may be given to several methods, in types of one scope or of several. The map by scope and id
keeps the one from the last type of the scope, and the map by id keeps what the map by scope and id
has for the last of the scopes: `Revision.methodsById_projects`.
-/

namespace RevisionGraph

/-- Keys may be written in another way, if different keys stay different. -/
theorem SortedMap.get?_ofList_mapKeys {κ κ' α : Type} [Ord κ] [DecidableEq κ] [Std.LawfulEqOrd κ]
    [Std.TransOrd κ] [Ord κ'] [DecidableEq κ'] [Std.LawfulEqOrd κ'] [Std.TransOrd κ'] {f : κ → κ'}
    (injective : Function.Injective f) (entries : List (κ × α)) (key : κ) :
    (ofList (entries.map fun entry => (f entry.1, entry.2))).get? (f key) =
      (ofList entries).get? key := by
  induction entries using List.reverseRecOn with
  | nil => rfl
  | append_singleton entries entry ih =>
    rw [List.map_append, List.map_singleton, ofList, insertMany_append, ofList, insertMany_append]
    simp only [insertMany_cons, insertMany_nil, get?_insert, injective.eq_iff]
    rw [← ofList, ← ofList, ih]

namespace Hierarchy

/-- Of the methods of a scope with one id the one from the last type is held. -/
theorem get?_ofList_methods_eq_some_iff {h : Hierarchy} {scope : Scope} {id : Int64}
    {method : Method} :
    (SortedMap.ofList (h.methods scope)).get? id = some method ↔
      ∃ uri type, h.type? scope uri = some type ∧ type.methods.get? id = some method ∧
        ∀ uri' type', h.type? scope uri' = some type' → type'.methods.containsId id →
          uri' = uri ∨ uri'.text < uri.text := by
  have asymm (a b : Uri × TypeDecl) (order : compare a.1 b.1 = .lt) : ¬ compare b.1 a.1 = .lt := by
    rw [Std.OrientedCmp.gt_of_lt order]
    decide
  have table (type : TypeDecl) : SortedMap.ofList type.methods.toList = type.methods.byId :=
    SortedMap.ofList_toList type.methods.byId
  rw [methods_eq, SortedMap.get?_ofList_flatMap_eq_some_iff asymm (h.get scope).ascending]
  simp only [table]
  constructor
  · rintro ⟨⟨uri, type⟩, held, given, last⟩
    refine ⟨uri, type, SortedMap.mem_toList_iff.1 held, given, fun uri' type' held' has => ?_⟩
    have given' : id ∈ type'.methods.byId.keys := SortedMap.mem_keys_iff.2 has
    rcases last (uri', type') (SortedMap.mem_toList_iff.2 held') given' with same | order
    · exact .inl (congrArg Prod.fst same)
    · exact .inr (Uri.compare_eq_lt_iff.1 order)
  · rintro ⟨uri, type, held, given, last⟩
    refine ⟨(uri, type), SortedMap.mem_toList_iff.2 held, given, ?_⟩
    rintro ⟨uri', type'⟩ mem given'
    have held' : h.type? scope uri' = some type' := SortedMap.mem_toList_iff.1 mem
    rcases last uri' type' held' (SortedMap.mem_keys_iff.1 given') with rfl | order
    · cases held.symm.trans held'
      exact .inl rfl
    · exact .inr (Uri.compare_eq_lt_iff.2 order)

end Hierarchy

namespace Revision

variable {r : Revision}

theorem get?_methodsByScope_eq (r : Revision) (scope : Scope) (id : Int64) :
    r.methodsByScope.get? ⟨scope, id⟩ = (SortedMap.ofList (r.hierarchy.methods scope)).get? id := by
  have rows (other : Scope) :
      (SortedMap.ofList ((r.hierarchy.methods other).map fun row =>
        ((⟨other, row.1⟩, row.2) : ScopedId × Method))).get? ⟨scope, id⟩ =
      if other = scope then (SortedMap.ofList (r.hierarchy.methods scope)).get? id else none := by
    split <;> rename_i here
    · subst here
      exact SortedMap.get?_ofList_mapKeys (fun _ _ same => congrArg ScopedId.id same) _ id
    · refine Option.eq_none_iff_forall_ne_some.2 fun method held => here ?_
      obtain ⟨row, _, same⟩ := List.mem_map.1 (SortedMap.mem_of_get?_ofList held)
      exact congrArg (fun entry => entry.1.scope) same
  have start : (∅ : SortedMap ScopedId Method).get? ⟨scope, id⟩ = none := rfl
  unfold methodsByScope Scope.all
  simp only [List.foldl_cons, List.foldl_nil, SortedMap.get?_insertMany_eq_or, rows, start]
  cases scope <;> simp

theorem get?_methodsById_eq (r : Revision) (id : Int64) :
    r.methodsById.get? id = (r.methodsByScope.get? ⟨.resolved, id⟩).or
      ((r.methodsByScope.get? ⟨.external, id⟩).or (r.methodsByScope.get? ⟨.internal, id⟩)) := by
  simp only [get?_methodsByScope_eq]
  unfold methodsById Scope.all
  simp only [List.foldl_cons, List.foldl_nil, SortedMap.get?_insertMany_eq_or]
  congr 2
  exact Option.or_none

theorem contains_methodsById_iff {id : Int64} :
    r.methodsById.contains id ↔ ∃ scope, r.methodsByScope.contains ⟨scope, id⟩ := by
  unfold SortedMap.contains
  rw [get?_methodsById_eq, Option.isSome_or, Option.isSome_or, Bool.or_eq_true, Bool.or_eq_true]
  constructor
  · rintro (resolved | external | internal)
    · exact ⟨.resolved, resolved⟩
    · exact ⟨.external, external⟩
    · exact ⟨.internal, internal⟩
  · rintro ⟨_ | _ | _, held⟩
    · exact .inr (.inr held)
    · exact .inr (.inl held)
    · exact .inl held

/-- Of several scopes with the id the last counts. -/
theorem get?_methodsById_eq_some_iff {id : Int64} {method : Method} :
    r.methodsById.get? id = some method ↔
      ∃ scope, r.methodsByScope.get? ⟨scope, id⟩ = some method ∧
        ∀ later ∈ scope.later, ¬ r.methodsByScope.contains ⟨later, id⟩ := by
  rw [get?_methodsById_eq, Option.or_eq_some_iff, Option.or_eq_some_iff]
  unfold SortedMap.contains
  constructor
  · rintro (resolved | ⟨notResolved, external | ⟨notExternal, internal⟩⟩)
    · exact ⟨.resolved, resolved, by simp [Scope.later]⟩
    · exact ⟨.external, external, by simp [Scope.later, notResolved]⟩
    · exact ⟨.internal, internal, by simp [Scope.later, notResolved, notExternal]⟩
  · rintro ⟨scope, held, last⟩
    cases scope with
    | internal =>
      have notExternal := last .external (by decide)
      have notResolved := last .resolved (by decide)
      rw [Option.not_isSome_iff_eq_none] at notExternal notResolved
      exact .inr ⟨notResolved, .inr ⟨notExternal, held⟩⟩
    | external =>
      have notResolved := last .resolved (by decide)
      rw [Option.not_isSome_iff_eq_none] at notResolved
      exact .inr ⟨notResolved, .inl held⟩
    | resolved => exact .inl held

/-- The map by id has an id if the map by scope and id has it for some scope, and the method is that
of the last such scope. The map by scope and id has the ids of the types of the scope, and the
method is that of the last type, in the order of the URIs, which has the id. -/
theorem methodsById_projects (r : Revision) :
    (∀ id, r.methodsById.contains id ↔ ∃ scope, r.methodsByScope.contains ⟨scope, id⟩) ∧
    (∀ id method, r.methodsById.get? id = some method ↔
      ∃ scope, r.methodsByScope.get? ⟨scope, id⟩ = some method ∧
        ∀ later ∈ scope.later, ¬ r.methodsByScope.contains ⟨later, id⟩) ∧
    (∀ scope id, r.methodsByScope.contains ⟨scope, id⟩ ↔
      ∃ uri type, r.hierarchy.type? scope uri = some type ∧ type.methods.containsId id) ∧
    ∀ scope id method, r.methodsByScope.get? ⟨scope, id⟩ = some method ↔
      ∃ uri type, r.hierarchy.type? scope uri = some type ∧ type.methods.get? id = some method ∧
        ∀ uri' type', r.hierarchy.type? scope uri' = some type' → type'.methods.containsId id →
          uri' = uri ∨ uri'.text < uri.text := by
  refine ⟨fun _ => contains_methodsById_iff, fun _ _ => get?_methodsById_eq_some_iff, ?_, ?_⟩
  · intro scope id
    rw [contains_methodsByScope_iff, Hierarchy.mem_ids_iff]
  · intro scope id method
    rw [get?_methodsByScope_eq, Hierarchy.get?_ofList_methods_eq_some_iff]

end Revision

end RevisionGraph

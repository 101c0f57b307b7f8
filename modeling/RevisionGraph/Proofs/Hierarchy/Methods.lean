import Mathlib.Data.List.Nodup
import RevisionGraph.Proofs.Hierarchy.Lookup
import RevisionGraph.Proofs.Method.Home
import RevisionGraph.Revision

/-!
# All methods of a hierarchy

If every method stands in the type that its URI names, no method stands in two types, and a map of
all methods by id loses none if no id is given twice. A map by scope and id loses none just if no id
is given twice in a scope.
-/

namespace RevisionGraph

namespace Hierarchy

def allMethods (h : Hierarchy) : List (Int64 × Method) := Scope.all.flatMap h.methods

/-- The methods of a hierarchy, each under its id and the scope of its type. -/
def scopedRows (h : Hierarchy) : List (ScopedId × Method) :=
  Scope.all.flatMap fun scope => (h.methods scope).map fun row => (⟨scope, row.1⟩, row.2)

/-- Every method stands in the type that its URI names. -/
def Homed (h : Hierarchy) : Prop :=
  ∀ scope uri type id method, h.type? scope uri = some type →
    type.methods.get? id = some method → method.uri.home? = some uri

variable {h : Hierarchy}

theorem mem_allMethods_iff {row : Int64 × Method} :
    row ∈ h.allMethods ↔ ∃ scope, row ∈ h.methods scope := by
  unfold allMethods
  rw [List.mem_flatMap]
  exact ⟨fun ⟨scope, _, mem⟩ => ⟨scope, mem⟩, fun ⟨scope, mem⟩ => ⟨scope, Scope.mem_all scope, mem⟩⟩

theorem length_allMethods (h : Hierarchy) : h.allMethods.length = h.methodCount :=
  List.length_flatMap

theorem length_scopedRows (h : Hierarchy) : h.scopedRows.length = h.methodCount := by
  unfold scopedRows
  rw [List.length_flatMap]
  simp only [List.length_map]
  rfl

theorem mem_scopedRows_iff {scope : Scope} {id : Int64} {method : Method} :
    (⟨scope, id⟩, method) ∈ h.scopedRows ↔ (id, method) ∈ h.methods scope := by
  unfold scopedRows
  rw [List.mem_flatMap]
  constructor
  · rintro ⟨other, _, mem⟩
    obtain ⟨row, held, same⟩ := List.mem_map.1 mem
    cases same
    exact held
  · intro mem
    exact ⟨scope, Scope.mem_all scope, List.mem_map.2 ⟨_, mem, rfl⟩⟩

theorem keys_scopedRows (h : Hierarchy) :
    h.scopedRows.map Prod.fst =
      Scope.all.flatMap fun scope => (h.ids scope).map (ScopedId.mk scope) := by
  unfold scopedRows ids
  rw [List.map_flatMap]
  simp only [List.map_map]
  rfl

/-- Scope and id together come twice only if an id comes twice in a scope. -/
theorem nodup_keys_scopedRows_iff :
    (h.scopedRows.map Prod.fst).Nodup ↔ ∀ scope, (h.ids scope).Nodup := by
  have injective (scope : Scope) : Function.Injective (ScopedId.mk scope) := by
    rintro id other ⟨⟩
    rfl
  have apart : Scope.all.Pairwise fun scope other =>
      List.Disjoint ((h.ids scope).map (ScopedId.mk scope))
        ((h.ids other).map (ScopedId.mk other)) := by
    have scopes : Scope.all.Nodup := by decide
    apply scopes.imp
    intro scope other apart key here there
    obtain ⟨_, _, rfl⟩ := List.mem_map.1 here
    obtain ⟨_, _, same⟩ := List.mem_map.1 there
    cases same
    exact apart rfl
  rw [keys_scopedRows, List.nodup_flatMap]
  simp only [List.nodup_map_iff (injective _)]
  exact ⟨fun both scope => both.1 scope (Scope.mem_all scope),
    fun each => ⟨fun scope _ => each scope, apart⟩⟩

theorem methods_eq (h : Hierarchy) (scope : Scope) :
    h.methods scope = (h.get scope).toList.flatMap fun entry => entry.2.methods.toList :=
  List.flatMap_map ..

theorem Homed.nodup_methods (homed : h.Homed) (scope : Scope) : (h.methods scope).Nodup := by
  rw [methods_eq, List.nodup_flatMap]
  constructor
  · intro entry _
    exact entry.2.methods.byId.nodup_keys.of_map
  · have apart := List.pairwise_map.1 (h.get scope).nodup_keys
    apply apart.imp_of_mem
    rintro ⟨uri, type⟩ ⟨uri', type'⟩ held held' apart ⟨id, method⟩ row row'
    have home := homed scope uri type id method (SortedMap.mem_toList_iff.1 held)
      (MethodTable.mem_toList_iff.1 row)
    have home' := homed scope uri' type' id method (SortedMap.mem_toList_iff.1 held')
      (MethodTable.mem_toList_iff.1 row')
    exact apart (Option.some.inj (home.symm.trans home'))

theorem Homed.nodup_allMethods (homed : h.Homed) (parted : h.Partitioned) : h.allMethods.Nodup := by
  unfold allMethods
  rw [List.nodup_flatMap]
  refine ⟨fun scope _ => homed.nodup_methods scope, ?_⟩
  have scopes : Scope.all.Nodup := by decide
  apply scopes.imp
  rintro scope other apart ⟨id, method⟩ here there
  obtain ⟨uri, type, held, row⟩ := mem_methods_iff.1 here
  obtain ⟨uri', type', held', row'⟩ := mem_methods_iff.1 there
  have home := homed scope uri type id method held row
  have home' := homed other uri' type' id method held' row'
  cases home.symm.trans home'
  exact apart (parted.scope_eq held held')

end Hierarchy

namespace Revision

theorem methodsById_eq (r : Revision) : r.methodsById = .ofList r.hierarchy.allMethods := by
  unfold methodsById Hierarchy.allMethods SortedMap.ofList Scope.all
  simp only [List.foldl_cons, List.foldl_nil, List.flatMap_cons, List.flatMap_nil,
    SortedMap.insertMany_append, SortedMap.insertMany_nil]
  rfl

theorem methodsByScope_eq (r : Revision) : r.methodsByScope = .ofList r.hierarchy.scopedRows := by
  unfold methodsByScope Hierarchy.scopedRows SortedMap.ofList Scope.all
  simp only [List.foldl_cons, List.foldl_nil, List.flatMap_cons, List.flatMap_nil,
    SortedMap.insertMany_append, SortedMap.insertMany_nil]
  rfl

/-- The map by scope and id has all methods just if no scope has an id twice. -/
theorem size_methodsByScope_iff {r : Revision} :
    r.methodsByScope.size = r.hierarchy.methodCount ↔ ∀ scope, (r.hierarchy.ids scope).Nodup := by
  rw [methodsByScope_eq, ← Hierarchy.length_scopedRows, ← Hierarchy.nodup_keys_scopedRows_iff]
  exact SortedMap.size_ofList_eq_iff

theorem get?_methodsByScope {r : Revision} (distinct : ∀ scope, (r.hierarchy.ids scope).Nodup)
    {scope : Scope} {id : Int64} {method : Method}
    (mem : (id, method) ∈ r.hierarchy.methods scope) :
    r.methodsByScope.get? ⟨scope, id⟩ = some method := by
  have keys := Hierarchy.nodup_keys_scopedRows_iff.2 distinct
  rw [methodsByScope_eq, SortedMap.get?_ofList keys, lookupEntry_eq_some_iff keys]
  exact Hierarchy.mem_scopedRows_iff.2 mem

theorem contains_methodsByScope_iff {r : Revision} {scope : Scope} {id : Int64} :
    r.methodsByScope.contains ⟨scope, id⟩ ↔ id ∈ r.hierarchy.ids scope := by
  rw [methodsByScope_eq, SortedMap.contains_ofList, List.mem_map, Hierarchy.ids, List.mem_map]
  constructor
  · rintro ⟨⟨key, method⟩, mem, rfl⟩
    exact ⟨_, Hierarchy.mem_scopedRows_iff.1 mem, rfl⟩
  · rintro ⟨⟨_, method⟩, mem, rfl⟩
    exact ⟨_, Hierarchy.mem_scopedRows_iff.2 mem, rfl⟩

theorem mem_of_get?_methodsByScope {r : Revision} {scope : Scope} {id : Int64} {method : Method}
    (held : r.methodsByScope.get? ⟨scope, id⟩ = some method) :
    (id, method) ∈ r.hierarchy.methods scope := by
  rw [methodsByScope_eq] at held
  exact Hierarchy.mem_scopedRows_iff.1 (SortedMap.mem_of_get?_ofList held)

theorem perm_methodsById {r : Revision} (distinct : (r.hierarchy.allMethods.map Prod.fst).Nodup) :
    r.methodsById.toList.Perm r.hierarchy.allMethods := by
  rw [methodsById_eq]
  exact SortedMap.perm_toList_ofList distinct

end Revision

end RevisionGraph

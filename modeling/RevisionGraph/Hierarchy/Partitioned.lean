import RevisionGraph.Hierarchy
import RevisionGraph.Ordered.Lookup

/-!
# Partitioned hierarchies

`Hierarchy.conflicts` is empty for a partitioned hierarchy only, so `ofScopes` gives no other, and
inserting, removing and moving types and adding methods keep a hierarchy partitioned.
-/

namespace RevisionGraph.Hierarchy

theorem type?_put (h : Hierarchy) (scope : Scope) (uri : Uri) (type : TypeDecl) (scope' : Scope)
    (uri' : Uri) :
    (h.put scope uri type).type? scope' uri' =
      if scope' = scope ∧ uri' = uri then some type else h.type? scope' uri' := by
  rw [put, type?]
  by_cases here : scope' = scope
  · subst here
    rw [get_set, SortedMap.get?_insert]
    simp [type?]
  · rw [get_set_of_ne h _ here]
    simp [here, type?]

theorem type?_remove (h : Hierarchy) (scope : Scope) (uri : Uri) (scope' : Scope) (uri' : Uri) :
    (h.remove scope uri).type? scope' uri' =
      if scope' = scope ∧ uri' = uri then none else h.type? scope' uri' := by
  rw [remove, type?]
  by_cases here : scope' = scope
  · subst here
    rw [get_set, SortedMap.get?_erase]
    simp [type?]
  · rw [get_set_of_ne h _ here]
    simp [here, type?]

/-- No type is held in two scopes. -/
theorem partitioned_iff {h : Hierarchy} :
    h.Partitioned ↔ ∀ scope other uri, (h.type? scope uri).isSome → (h.type? other uri).isSome →
      scope = other :=
  Iff.rfl

theorem partitioned_empty : Partitioned ∅ := by
  intro scope other uri held
  cases scope <;> cases held

theorem Partitioned.remove {h : Hierarchy} (parted : h.Partitioned) (scope : Scope) (uri : Uri) :
    (h.remove scope uri).Partitioned := by
  rw [partitioned_iff] at parted ⊢
  intro first second uri' left right
  rw [type?_remove] at left right
  refine parted first second uri' ?_ ?_
  · split at left
    · cases left
    · exact left
  · split at right
    · cases right
    · exact right

/-- A type may be put where no other scope holds it. -/
theorem Partitioned.put {h : Hierarchy} (parted : h.Partitioned) {scope : Scope} {uri : Uri}
    (free : ∀ other, other ≠ scope → h.type? other uri = none) (type : TypeDecl) :
    (h.put scope uri type).Partitioned := by
  rw [partitioned_iff] at parted ⊢
  have onlyHere {other : Scope} (held : ((h.put scope uri type).type? other uri).isSome) :
      other = scope := by
    rw [type?_put] at held
    by_cases here : other = scope
    · exact here
    · simp [here, free other here] at held
  intro first second uri' left right
  by_cases same : uri' = uri
  · subst same
    exact (onlyHere left).trans (onlyHere right).symm
  · rw [type?_put, if_neg (by simp [same])] at left right
    exact parted first second uri' left right

theorem rival?_eq_none_iff {h : Hierarchy} {scope : Scope} {uri : Uri} :
    h.rival? scope uri = none ↔ ∀ other, other ≠ scope → h.type? other uri = none := by
  rw [rival?, List.find?_eq_none]
  constructor
  · intro absent other apart
    have mem : other ∈ Scope.all.filter fun other => decide (other ≠ scope) := by
      simpa using ⟨Scope.mem_all other, apart⟩
    simpa [SortedMap.contains, type?] using absent other mem
  · intro absent other mem
    have apart : other ≠ scope := by simpa using (List.mem_filter.1 mem).2
    simpa [SortedMap.contains, type?] using absent other apart

theorem rival?_eq_some {h : Hierarchy} {scope rival : Scope} {uri : Uri}
    (found : h.rival? scope uri = some rival) :
    rival ≠ scope ∧ (h.type? rival uri).isSome := by
  rw [rival?] at found
  have apart := (List.mem_filter.1 (List.mem_of_find?_eq_some found)).2
  have held := List.find?_some found
  exact ⟨by simpa using apart, held⟩

theorem Partitioned.insert {h : Hierarchy} (parted : h.Partitioned) (scope : Scope) (uri : Uri)
    (type : TypeDecl) : (h.insert scope uri type).2.Partitioned := by
  rw [Hierarchy.insert]
  split <;> rename_i rival
  · rename_i holder
    refine (parted.remove holder uri).put ?_ type
    intro other _
    rw [type?_remove]
    by_cases here : other = holder
    · rw [if_pos ⟨here, rfl⟩]
    · rw [if_neg (by simp [here])]
      have held := (rival?_eq_some rival).2
      refine Option.not_isSome_iff_eq_none.1 fun also => ?_
      exact here (parted other holder uri also held)
  · exact parted.put (rival?_eq_none_iff.1 rival) type

theorem Partitioned.move {h moved : Hierarchy} (parted : h.Partitioned) {uri : Uri}
    {source target : Scope} (ok : h.move uri source target = .ok moved) : moved.Partitioned := by
  rw [Hierarchy.move] at ok
  split at ok <;> rename_i held
  · cases ok
    refine (parted.remove source uri).put ?_ _
    intro other _
    rw [type?_remove]
    by_cases here : other = source
    · rw [if_pos ⟨here, rfl⟩]
    · rw [if_neg (by simp [here])]
      refine Option.not_isSome_iff_eq_none.1 fun also => ?_
      refine here (parted other source uri also ?_)
      exact Option.isSome_of_eq_some held
  · cases ok

theorem Partitioned.addMethod? {h added : Hierarchy} (parted : h.Partitioned) {scope : Scope}
    {uri : Uri} {method : Method} {candidate id : Int64}
    (ok : h.addMethod? scope uri method candidate = some (id, added)) : added.Partitioned := by
  rw [Hierarchy.addMethod?, Option.map_eq_some_iff] at ok
  obtain ⟨type, held, made⟩ := ok
  cases made
  refine parted.put ?_ _
  intro other apart
  refine Option.not_isSome_iff_eq_none.1 fun also => ?_
  exact apart (parted other scope uri also (Option.isSome_of_eq_some held))

theorem mem_conflicts_iff {h : Hierarchy} {first second : Scope} {uri : Uri} :
    (first, uri, second) ∈ h.conflicts ↔
      second ∈ first.later ∧ (h.get first).contains uri ∧ (h.get second).contains uri := by
  simp only [conflicts, List.mem_flatMap, List.mem_map, List.mem_filter, SortedMap.mem_keys_iff,
    Prod.mk.injEq]
  constructor
  · rintro ⟨_, _, _, held, _, ⟨later, also⟩, rfl, rfl, rfl⟩
    exact ⟨later, held, also⟩
  · rintro ⟨later, held, also⟩
    exact ⟨first, Scope.mem_all first, uri, held, second, ⟨later, also⟩, rfl, rfl, rfl⟩

theorem conflicts_eq_nil_iff {h : Hierarchy} : h.conflicts = [] ↔ h.Partitioned := by
  rw [List.eq_nil_iff_forall_not_mem]
  constructor
  · intro none first second uri left right
    by_cases apart : first = second
    · exact apart
    · rcases Scope.mem_later_or apart with later | later
      · exact absurd (mem_conflicts_iff.2 ⟨later, left, right⟩) (none (first, uri, second))
      · exact absurd (mem_conflicts_iff.2 ⟨later, right, left⟩) (none (second, uri, first))
  · rintro parted ⟨first, uri, second⟩ mem
    obtain ⟨later, left, right⟩ := mem_conflicts_iff.1 mem
    cases parted first second uri left right
    exact Scope.not_mem_later first later

theorem partitioned_of_ofScopes {internal external resolved : TypeMap} {h : Hierarchy}
    (ok : ofScopes internal external resolved = .ok h) : h.Partitioned := by
  rw [ofScopes] at ok
  split at ok <;> rename_i conflicts
  · cases ok
    exact conflicts_eq_nil_iff.1 conflicts
  · cases ok

end RevisionGraph.Hierarchy

import RevisionGraph.CallGraph
import RevisionGraph.Ordered.Lookup

/-!
# What a call graph holds

A graph is given by the call sites under each relation and pair. `sites?_addSites` and
`sites?_removeCall` say what the two basic operations do to them, `CallSites.get?_merge` what is
then held for a call site.
-/

namespace RevisionGraph

open Json (Metadata)

namespace CallSites

/-- What a call site holds after `added` is merged into `held`. -/
def joined (held : Option Metadata) : Option Metadata → Option Metadata
  | some added => some ((held.getD ∅).union added)
  | none => held

theorem get?_merge (sites added : CallSites) (site : Int64) :
    (merge sites added).get? site = joined (sites.get? site) (added.get? site) := by
  have combined := SortedMap.get?_foldl_combine
    (fun held metadata => (held.getD ∅).union metadata) sites added.ascending site
  refine Eq.trans combined ?_
  show ((added.get? site).map _).or _ = _
  cases added.get? site <;> rfl

theorem merge_assoc (sites added more : CallSites) :
    (sites.merge added).merge more = sites.merge (added.merge more) := by
  apply SortedMap.ext_get?
  intro site
  simp only [get?_merge]
  cases more.get? site with
  | none => rfl
  | some last =>
    cases added.get? site with
    | none => exact congrArg some (congrArg (SortedMap.union _) (SortedMap.empty_union last).symm)
    | some first => exact congrArg some (SortedMap.union_assoc _ first last)

theorem merge_self (sites : CallSites) : sites.merge sites = sites := by
  apply SortedMap.ext_get?
  intro site
  rw [get?_merge]
  cases sites.get? site with
  | none => rfl
  | some metadata => exact congrArg some (SortedMap.union_self metadata)

end CallSites

namespace CallMap

theorem get?_merge (calls : CallMap) (pair : CallPair) (added : CallSites) (other : CallPair) :
    (merge calls pair added).get? other =
      if other = pair then some (((calls.get? pair).getD ∅).merge added) else calls.get? other :=
  SortedMap.get?_insert calls pair _ other

end CallMap

namespace CallGraph

theorem sites?_addSites (g : CallGraph) (relation : Relation) (pair : CallPair) (sites : CallSites)
    (relation' : Relation) (pair' : CallPair) :
    (g.addSites relation pair sites).sites? relation' pair' =
      if relation' = relation ∧ pair' = pair then
        some (((g.sites? relation pair).getD ∅).merge sites)
      else g.sites? relation' pair' := by
  rw [addSites, sites?]
  by_cases here : relation' = relation
  · subst here
    rw [get_set, CallMap.get?_merge]
    simp [sites?]
  · rw [get_set_of_ne g _ here]
    simp [here, sites?]

theorem sites?_removeCall (g : CallGraph) (relation : Relation) (pair : CallPair)
    (relation' : Relation) (pair' : CallPair) :
    (g.removeCall relation pair).sites? relation' pair' =
      if relation' = relation ∧ pair' = pair then none else g.sites? relation' pair' := by
  rw [removeCall, sites?]
  by_cases here : relation' = relation
  · subst here
    rw [get_set, SortedMap.get?_erase]
    simp [sites?]
  · rw [get_set_of_ne g _ here]
    simp [here, sites?]

theorem sites?_empty (relation : Relation) (pair : CallPair) :
    (∅ : CallGraph).sites? relation pair = none := by
  cases relation <;> rfl

theorem contains_iff_sites? {g : CallGraph} {relation : Relation} {pair : CallPair} :
    (g.get relation).contains pair ↔ ∃ sites, g.sites? relation pair = some sites :=
  SortedMap.contains_iff

/-- A graph is determined by the call sites under each relation and pair. -/
theorem ext_sites? {g h : CallGraph}
    (same : ∀ relation pair, g.sites? relation pair = h.sites? relation pair) : g = h := by
  obtain ⟨internal, external, resolved⟩ := g
  obtain ⟨internal', external', resolved'⟩ := h
  have sameInternal : internal = internal' := SortedMap.ext_get? (same .internal)
  have sameExternal : external = external' := SortedMap.ext_get? (same .external)
  have sameResolved : resolved = resolved' := SortedMap.ext_get? (same .resolved)
  rw [sameInternal, sameExternal, sameResolved]

end CallGraph

end RevisionGraph

import Mathlib.Data.List.Induction
import RevisionGraph.Assembly.Assembler
import RevisionGraph.Proofs.CallGraph.History
import RevisionGraph.Proofs.Ordered.Distinct

/-!
# Moving calls

What a graph holds after pairs are moved to another relation, and after the calls of several callees
are made internal.
-/

namespace RevisionGraph

open Json (Metadata)

namespace CallSites

theorem joined_none (added : Option Metadata) : joined none added = added := by
  cases added with
  | none => rfl
  | some added => exact congrArg some (SortedMap.empty_union added)

theorem isSome_joined (held added : Option Metadata) :
    (joined held added).isSome = (held.isSome || added.isSome) := by
  cases added <;> simp [joined]

theorem empty_merge (sites : CallSites) : merge ∅ sites = sites := by
  apply SortedMap.ext_get?
  intro site
  rw [get?_merge]
  exact joined_none _

/-- The metadata of several calls at one site, one after the other. -/
def joinAll (added : List Metadata) : Option Metadata :=
  added.foldl (fun held added => joined held (some added)) none

theorem joinAll_concat (first : List Metadata) (last : Metadata) :
    joinAll (first ++ [last]) = some (((joinAll first).getD ∅).union last) := by
  rw [joinAll, List.foldl_append]
  rfl

theorem joinAll_isSome {added : List Metadata} : (joinAll added).isSome ↔ added ≠ [] := by
  induction added using List.reverseRecOn with
  | nil => simp [joinAll]
  | append_singleton first last => simp [joinAll_concat]

/-- Of the values under one key the last one counts. -/
theorem get?_joinAll (added : List Metadata) (key : String) :
    ((joinAll added).getD ∅).get? key =
      added.reverse.findSome? fun metadata => metadata.get? key := by
  induction added using List.reverseRecOn with
  | nil => rfl
  | append_singleton first last ih =>
    rw [joinAll_concat, Option.getD_some, SortedMap.get?_union, ih, List.reverse_concat,
      List.findSome?_cons]
    cases last.get? key <;> rfl

end CallSites

namespace CallGraph

/-- What a pair has after `added` is merged into what it had. -/
def merged (held : Option CallSites) : Option CallSites → Option CallSites
  | some added => some ((held.getD ∅).merge added)
  | none => held

theorem merged_none (added : Option CallSites) : merged none added = added := by
  cases added with
  | none => rfl
  | some added => exact congrArg some (CallSites.empty_merge added)

theorem merged_assoc (held added more : Option CallSites) :
    merged (merged held added) more = merged held (merged added more) := by
  cases more with
  | none => rfl
  | some last =>
    cases added with
    | none => exact congrArg (merged held) (merged_none (some last)).symm
    | some first => exact congrArg some (CallSites.merge_assoc _ first last)

theorem merged_self (held : Option CallSites) : merged held held = held := by
  cases held with
  | none => rfl
  | some sites => exact congrArg some (CallSites.merge_self sites)

theorem metadataAt_merged (held added : Option CallSites) (site : Int64) :
    metadataAt (merged held added) site =
      CallSites.joined (metadataAt held site) (metadataAt added site) := by
  cases added with
  | none => rfl
  | some added => exact metadataAt_merge held added site

/-- Of two values under one key the added one counts. -/
theorem valueAt_merged (held added : Option CallSites) (site : Int64) (key : String) :
    valueAt (merged held added) site key =
      (valueAt added site key).or (valueAt held site key) := by
  cases added with
  | none => rfl
  | some added =>
    refine (valueAt_act held site key (.addSites added)).trans ?_
    show ((valueAt (some added) site key).map some).getD _ = _
    cases valueAt (some added) site key <;> rfl

theorem sites?_moveCall? (g : CallGraph) (pair : CallPair) (source target : Relation)
    (apart : source ≠ target) (relation : Relation) (other : CallPair) :
    ((g.moveCall? pair source target).getD g).sites? relation other =
      if other = pair then
        if relation = target then merged (g.sites? target pair) (g.sites? source pair)
        else if relation = source then none
        else g.sites? relation pair
      else g.sites? relation other := by
  unfold moveCall?
  cases held : g.sites? source pair with
  | none =>
    rw [Option.map_none, Option.getD_none]
    by_cases same : other = pair
    · subst same
      by_cases here : relation = target
      · simp [here, merged]
      · by_cases there : relation = source
        · simp [there, apart, held]
        · simp [here, there]
    · simp [same]
  | some sites =>
    rw [Option.map_some, Option.getD_some, sites?_addSites, sites?_removeCall, sites?_removeCall]
    by_cases same : other = pair
    · subst same
      by_cases here : relation = target
      · simp [here, Ne.symm apart, merged]
      · simp [here]
    · simp [same]

/-- Moves pairs to another relation, as far as `source` holds them. -/
def moveAll (g : CallGraph) (pairs : List CallPair) (source target : Relation) : CallGraph :=
  pairs.foldl (fun g pair => (g.moveCall? pair source target).getD g) g

/-- Pairs are moved in any order; a pair that comes again is not there any more. -/
theorem sites?_moveAll (g : CallGraph) (pairs : List CallPair) {source target : Relation}
    (apart : source ≠ target) (relation : Relation) (pair : CallPair) :
    (g.moveAll pairs source target).sites? relation pair =
      if pair ∈ pairs then
        if relation = target then merged (g.sites? target pair) (g.sites? source pair)
        else if relation = source then none
        else g.sites? relation pair
      else g.sites? relation pair := by
  induction pairs generalizing g with
  | nil => rfl
  | cons head rest ih =>
    have moved := g.sites?_moveCall? head source target apart
    refine (ih _).trans ?_
    simp only [moved]
    by_cases same : pair = head
    · subst same
      by_cases again : pair ∈ rest
      · by_cases here : relation = target <;> by_cases there : relation = source <;>
          simp [again, here, there, apart, merged]
      · simp [again]
    · simp [same]

end CallGraph

namespace Assembler

theorem sites?_internalize (g : CallGraph) (ids : List Int64) (relation : Relation)
    (pair : CallPair) :
    (internalize g ids).sites? relation pair =
      if pair.callee ∈ ids then
        match relation with
        | .internal => CallGraph.merged (g.sites? .internal pair) (g.sites? .external pair)
        | .external => none
        | .resolved => g.sites? .resolved pair
      else g.sites? relation pair := by
  have chosen : pair ∈ g.external.keys.filter (fun pair => ids.contains pair.callee) ↔
      pair ∈ g.external.keys ∧ pair.callee ∈ ids := by
    rw [List.mem_filter, List.contains_iff_mem]
  refine (g.sites?_moveAll _ (by decide) relation pair).trans ?_
  by_cases inside : pair.callee ∈ ids
  · by_cases known : pair ∈ g.external.keys
    · rw [if_pos (chosen.2 ⟨known, inside⟩), if_pos inside]
      cases relation <;> rfl
    · have absent : g.sites? .external pair = none := SortedMap.get?_eq_none_iff.2 known
      rw [if_neg fun mem => known (chosen.1 mem).1, if_pos inside, absent]
      cases relation with
      | internal => rfl
      | external => exact absent
      | resolved => rfl
  · rw [if_neg fun mem => inside (chosen.1 mem).2, if_neg inside]

end Assembler

end RevisionGraph

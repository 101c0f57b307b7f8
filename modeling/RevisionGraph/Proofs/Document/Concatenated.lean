import Mathlib.Data.Option.NAry
import RevisionGraph.Proofs.CallGraph.Append
import RevisionGraph.Proofs.Document.Acceptance

/-!
# Call arrays one after the other

Two call arrays are decoded one after the other as each of them is decoded by itself, and the calls
of the second are added to those of the first: `Document.decodeCalls_append`. So a document with the
calls of two others is decoded to the appended graphs (`Document.decode_concatenated`), however the
entries of one pair are spread over the arrays and however their ids are spelled.
-/

namespace RevisionGraph

namespace CallGraph

/-- To add to the calls of two maps is to add to the second of them first. -/
theorem mergeAll_merge (calls added : CallMap) (pair : CallPair) (sites : CallSites) :
    CallMap.merge (mergeAll calls added) pair sites =
      mergeAll calls (CallMap.merge added pair sites) := by
  apply SortedMap.ext_get?
  intro other
  simp only [CallMap.get?_merge, get?_mergeAll]
  split <;> rename_i here
  · rw [here]
    exact merged_assoc (calls.get? pair) (added.get? pair) (some sites)
  · rfl

/-- Adds the call sites of every pair of a map. -/
def addCalls (g : CallGraph) (relation : Relation) (calls : CallMap) : CallGraph :=
  calls.toList.foldl (fun g entry => g.addSites relation entry.1 entry.2) g

theorem get_addCalls (g : CallGraph) (relation : Relation) (calls : CallMap) :
    (g.addCalls relation calls).get relation = mergeAll (g.get relation) calls :=
  (List.foldl_hom (fun g : CallGraph => g.get relation)
    fun g entry => (g.get_set relation (CallMap.merge (g.get relation) entry.1 entry.2)).symm).symm

end CallGraph

namespace Document

open CallGraph (mergeAll)

/-! ### Call arrays -/

theorem decodeCall_mergeAll (path : FieldPath) (held calls : CallMap) (e : CallEntry) :
    decodeCall path (mergeAll held calls) e = mergeAll held <$> decodeCall path calls e := by
  simp only [decodeCall, CallGraph.mergeAll_merge, map_bind, map_pure]

/-- Also the error is that of the first array that has one. -/
theorem decodeCalls_append (relation : Relation) (xs ys : List CallEntry) :
    decodeCalls relation (xs ++ ys) = do
      let first ← decodeCalls relation xs
      let second ← decodeCalls relation ys
      return mergeAll first second := by
  unfold decodeCalls
  rw [List.foldlM_append]
  refine bind_congr fun first => ?_
  rw [bind_pure_comp]
  -- the walk over `ys` starts from `first`, which is `mergeAll first ∅`
  exact foldlM_hom (decodeCall_mergeAll _ first) ys ∅

theorem decodeCalls_append_eq_ok_iff {relation : Relation} {xs ys : List CallEntry}
    {calls : CallMap} :
    decodeCalls relation (xs ++ ys) = .ok calls ↔
      ∃ first second, decodeCalls relation xs = .ok first ∧
        decodeCalls relation ys = .ok second ∧ mergeAll first second = calls := by
  simp only [decodeCalls_append, bind_eq_ok_iff, pure, Except.pure, Except.ok.injEq,
    exists_and_left]

/-! ### Call graphs -/

/-- The internal and external calls of two documents, one after the other, and the resolved calls of
the first. -/
def Calls.join (c d : Calls) : Calls where
  internal := Option.map₂ (· ++ ·) c.internal d.internal
  external := Option.map₂ (· ++ ·) c.external d.external
  resolved := c.resolved

theorem decodeRelation_map₂_eq_ok_iff {relation : Relation} {a b : Option (List CallEntry)}
    {calls : CallMap} :
    decodeRelation relation (Option.map₂ (· ++ ·) a b) = .ok calls ↔
      ∃ first second, decodeRelation relation a = .ok first ∧
        decodeRelation relation b = .ok second ∧ mergeAll first second = calls := by
  cases a with
  | none => simp [decodeRelation, require, bind, Except.bind]
  | some xs =>
    cases b with
    | none => simp [decodeRelation, require, bind, Except.bind]
    | some ys => exact decodeCalls_append_eq_ok_iff

theorem decodeCallGraph_join_eq_ok_iff {c d : Calls} {graph : CallGraph} :
    (decodeCallGraph (c.join d) = .ok graph ∧
        ∃ left, decodeRelation .resolved d.resolved = .ok left) ↔
      ∃ g other, decodeCallGraph c = .ok g ∧ decodeCallGraph d = .ok other ∧
        graph = g.append other := by
  simp only [decodeCallGraph_eq_ok_iff]
  constructor
  · rintro ⟨joined, resolved, rest⟩
    obtain ⟨internal, internal', first, first', sum⟩ :=
      decodeRelation_map₂_eq_ok_iff.1 (joined .internal)
    obtain ⟨external, external', second, second', sum'⟩ :=
      decodeRelation_map₂_eq_ok_iff.1 (joined .external)
    refine ⟨⟨internal, external, graph.resolved⟩, ⟨internal', external', resolved⟩, ?_, ?_, ?_⟩
    · rintro ⟨⟩
      · exact first
      · exact second
      · exact joined .resolved
    · rintro ⟨⟩
      · exact first'
      · exact second'
      · exact rest
    · rw [CallGraph.append, sum, sum']
      rfl
  · rintro ⟨g, other, first, second, rfl⟩
    refine ⟨?_, _, second .resolved⟩
    rintro ⟨⟩
    · exact decodeRelation_map₂_eq_ok_iff.2 ⟨_, _, first .internal, second .internal, rfl⟩
    · exact decodeRelation_map₂_eq_ok_iff.2 ⟨_, _, first .external, second .external, rfl⟩
    · exact first .resolved

/-- Two call arrays can be decoded one after the other if each of them can, and this adds the call
sites of every pair of the second to the pairs of the first. Where the internal and external calls
of two documents are put one after the other, what is decoded are the appended graphs. -/
theorem decode_concatenated :
    (∀ relation xs ys calls, decodeCalls relation (xs ++ ys) = .ok calls ↔
      ∃ first second, decodeCalls relation xs = .ok first ∧ decodeCalls relation ys = .ok second ∧
        ∀ g : CallGraph, ((g.set relation first).addCalls relation second).get relation = calls) ∧
    ∀ c d graph,
      (decodeCallGraph (c.join d) = .ok graph ∧
          ∃ left, decodeRelation .resolved d.resolved = .ok left) ↔
        ∃ g other, decodeCallGraph c = .ok g ∧ decodeCallGraph d = .ok other ∧
          graph = g.append other := by
  refine ⟨fun relation xs ys calls => ?_, fun c d graph => decodeCallGraph_join_eq_ok_iff⟩
  have added (first second : CallMap) :
      (∀ g : CallGraph, ((g.set relation first).addCalls relation second).get relation = calls) ↔
        mergeAll first second = calls := by
    simp only [CallGraph.get_addCalls, CallGraph.get_set, forall_const]
  simp only [decodeCalls_append_eq_ok_iff, added]

end Document

end RevisionGraph

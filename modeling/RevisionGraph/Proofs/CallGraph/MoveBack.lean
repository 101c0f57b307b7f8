import RevisionGraph.Proofs.CallGraph.Moves

/-!
# A call that is moved, and moved back

A pair that is moved joins what the other relation holds of it, and nothing else changes; where the
other relation holds nothing of it the move can be taken back: `CallGraph.moveCall_moves`.
-/

namespace RevisionGraph.CallGraph

variable {g : CallGraph} {pair : CallPair} {source target : Relation}

/-! ### Moving -/

theorem removeCall_of_absent {relation : Relation} (absent : g.sites? relation pair = none) :
    g.removeCall relation pair = g := by
  apply ext_sites?
  intro relation' pair'
  rw [sites?_removeCall]
  split <;> rename_i here
  · obtain ⟨rfl, rfl⟩ := here
    exact absent.symm
  · rfl

theorem moveCall_eq (g : CallGraph) (pair : CallPair) (source target : Relation) :
    g.moveCall pair source target =
      ((g.moveCall? pair source target).isSome, (g.moveCall? pair source target).getD g) := by
  unfold moveCall takeCall moveCall?
  cases held : g.sites? source pair with
  | none => rw [removeCall_of_absent held]; rfl
  | some sites => rfl

theorem moveCall_fst_iff :
    (g.moveCall pair source target).1 = true ↔ (g.get source).contains pair := by
  rw [moveCall_eq, moveCall?, Option.isSome_map]
  rfl

theorem moveCall_of_absent (absent : (g.moveCall pair source target).1 = false) :
    (g.moveCall pair source target).2 = g := by
  rw [moveCall_eq] at absent ⊢
  rw [Option.isSome_eq_false_iff, Option.isNone_iff_eq_none] at absent
  rw [absent]
  rfl

theorem moveCall_self (g : CallGraph) (pair : CallPair) (relation : Relation) :
    (g.moveCall pair relation relation).2 = g := by
  rw [moveCall_eq, moveCall?]
  cases held : g.sites? relation pair with
  | none => rfl
  | some sites =>
    -- nothing is left of the pair that its call sites could be merged with
    have taken : (g.removeCall relation pair).sites? relation pair = none := by
      rw [sites?_removeCall, if_pos ⟨rfl, rfl⟩]
    apply ext_sites?
    intro relation' pair'
    show ((g.removeCall relation pair).addSites relation pair sites).sites? relation' pair' = _
    rw [sites?_addSites, taken]
    split <;> rename_i here
    · obtain ⟨rfl, rfl⟩ := here
      exact (congrArg some (CallSites.empty_merge sites)).trans held.symm
    · rw [sites?_removeCall, if_neg here]

theorem sites?_moveCall (g : CallGraph) (pair : CallPair) {source target : Relation}
    (apart : source ≠ target) (relation : Relation) (other : CallPair) :
    (g.moveCall pair source target).2.sites? relation other =
      if other = pair then
        if relation = target then merged (g.sites? target pair) (g.sites? source pair)
        else if relation = source then none
        else g.sites? relation pair
      else g.sites? relation other := by
  rw [moveCall_eq]
  exact g.sites?_moveCall? pair source target apart relation other

/-! ### Moving back -/

theorem moveCall_moveCall (apart : source ≠ target) (held : (g.get source).contains pair)
    (absent : g.sites? target pair = none) :
    (g.moveCall pair source target).2.moveCall pair target source = (true, g) := by
  have moved := g.sites?_moveCall pair apart
  have left : (g.moveCall pair source target).2.sites? source pair = none := by
    rw [moved, if_pos rfl, if_neg apart, if_pos rfl]
  have there : (g.moveCall pair source target).2.sites? target pair = g.sites? source pair := by
    rw [moved, if_pos rfl, if_pos rfl, absent, merged_none]
  apply Prod.ext
  · rw [moveCall_fst_iff, contains_iff_sites?, there]
    exact contains_iff_sites?.1 held
  · apply ext_sites?
    intro relation other
    rw [sites?_moveCall _ pair apart.symm, left, there, merged_none]
    by_cases same : other = pair
    · subst same
      rw [if_pos rfl]
      split <;> rename_i notSource
      · rw [notSource]
      split <;> rename_i notTarget
      · rw [notTarget, absent]
      · rw [moved, if_pos rfl, if_neg notTarget, if_neg notSource]
    · rw [if_neg same, moved, if_neg same]

/-- `h` is `g` with a pair moved from one relation to another. -/
structure Moved (g : CallGraph) (pair : CallPair) (source target : Relation) (h : CallGraph) :
    Prop where
  gone : (h.get source).contains pair = false
  held : (h.get target).contains pair
  sites : ∀ site, (metadataAt (h.sites? target pair) site).isSome ↔
    (metadataAt (g.sites? source pair) site).isSome ∨
      (metadataAt (g.sites? target pair) site).isSome
  /-- Of two values under one key of a call site the moved one counts. -/
  values : ∀ site key, valueAt (h.sites? target pair) site key =
    (valueAt (g.sites? source pair) site key).or (valueAt (g.sites? target pair) site key)
  others : ∀ relation other, other ≠ pair → h.sites? relation other = g.sites? relation other
  third : ∀ relation, relation ≠ source → relation ≠ target → h.get relation = g.get relation
  back : (g.get target).contains pair = false → h.moveCall pair target source = (true, g)

theorem moved_of_contains (apart : source ≠ target) (held : (g.get source).contains pair) :
    Moved g pair source target (g.moveCall pair source target).2 := by
  have moved := g.sites?_moveCall pair apart
  have there : (g.moveCall pair source target).2.sites? target pair =
      merged (g.sites? target pair) (g.sites? source pair) := by
    rw [moved, if_pos rfl, if_pos rfl]
  refine ⟨?_, ?_, ?_, ?_, ?_, ?_, ?_⟩
  · have left : (g.moveCall pair source target).2.sites? source pair = none := by
      rw [moved, if_pos rfl, if_neg apart, if_pos rfl]
    exact congrArg Option.isSome left
  · obtain ⟨sites, held⟩ := contains_iff_sites?.1 held
    rw [contains_iff_sites?, there, held]
    exact ⟨_, rfl⟩
  · intro site
    rw [there, metadataAt_merged, CallSites.isSome_joined, Bool.or_eq_true, or_comm]
  · intro site key
    rw [there, valueAt_merged]
  · intro relation other elsewhere
    rw [moved, if_neg elsewhere]
  · intro relation notSource notTarget
    apply SortedMap.ext_get?
    intro other
    refine (moved relation other).trans ?_
    rw [if_neg notTarget, if_neg notSource]
    split <;> rename_i same
    · rw [same]; rfl
    · rfl
  · intro absent
    exact moveCall_moveCall apart held
      (Option.isNone_iff_eq_none.1 (Option.isSome_eq_false_iff.1 absent))

/-- To move a pair tells whether the pair was there. If it was not, or is to go where it is, the
graph stays as it is; otherwise the pair is moved. -/
theorem moveCall_moves (g : CallGraph) (pair : CallPair) (source target : Relation) :
    ((g.moveCall pair source target).1 = true ↔ (g.get source).contains pair) ∧
    ((g.moveCall pair source target).1 = false ∨ source = target →
      (g.moveCall pair source target).2 = g) ∧
    ((g.moveCall pair source target).1 = true → source ≠ target →
      Moved g pair source target (g.moveCall pair source target).2) := by
  refine ⟨moveCall_fst_iff, ?_, ?_⟩
  · rintro (absent | rfl)
    · exact moveCall_of_absent absent
    · exact moveCall_self g pair source
  · intro moves apart
    exact moved_of_contains apart (moveCall_fst_iff.1 moves)

theorem moveCall_moves_shared :
    let kind (text : String) : CallMap := SortedMap.empty.insert ⟨0, 100⟩
      (SortedMap.empty.insert 5 (SortedMap.empty.insert "type" (.text text)))
    let g : CallGraph := ⟨∅, kind "virtual", kind "static"⟩
    let moved := g.moveCall ⟨0, 100⟩ .external .resolved
    moved.1 = true ∧ Relation.external ≠ .resolved ∧
      Moved g ⟨0, 100⟩ .external .resolved moved.2 ∧
      valueAt (moved.2.sites? .resolved ⟨0, 100⟩) 5 "type" = some (.text "virtual") ∧
      (g.moveCall ⟨0, 100⟩ .internal .resolved).1 = false ∧
      (g.moveCall ⟨0, 100⟩ .internal .resolved).2 = g := by
  intro kind g moved
  have moves : moved.1 = true := rfl
  have apart : Relation.external ≠ .resolved := by decide
  have absent : (g.moveCall ⟨0, 100⟩ .internal .resolved).1 = false := rfl
  have joined := (moveCall_moves g ⟨0, 100⟩ .external .resolved).2.2 moves apart
  have same := (moveCall_moves g ⟨0, 100⟩ .internal .resolved).2.1 (.inl absent)
  exact ⟨moves, apart, joined, (joined.values 5 "type").trans rfl, absent, same⟩

end RevisionGraph.CallGraph
